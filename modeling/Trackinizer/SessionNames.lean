import Mathlib.Data.List.Perm.Subperm
import Trackinizer.Lib.Trace
import Trackinizer.SessionStarts

namespace Trackinizer

open Keyed Transact

namespace Sessions

/-- A session with its name. -/
def LifeRow.name? (r : LifeRow) : Option (UUID × Value) :=
  if r.kind = .agentSession then some (r.id, r.owner) else none

def Life.names (l : Life) : List (UUID × Value) :=
  l.rows.filterMap LifeRow.name?

theorem mem_names {l : Life} {id : UUID} {owner : Value} :
    (id, owner) ∈ l.names ↔
      ∃ r ∈ l.rows, r.kind = .agentSession ∧ r.id = id ∧ r.owner = owner := by
  unfold Life.names
  rw [List.mem_filterMap]
  refine exists_congr fun r => and_congr_right fun _ => ?_
  unfold LifeRow.name?
  split
  next hkind => simp [hkind]
  next hkind => simp [hkind]

theorem names_set (l : Life) (id : UUID) (ended status : Value) :
    (l.set id ended status).names = l.names := by
  unfold Life.names Life.set
  dsimp only
  rw [List.filterMap_map]
  congr 1
  funext r
  rw [Function.comp_apply]
  split
  next => rfl
  next => rfl

theorem names_of_move {l l' : Life} {id : UUID} {ended status : Value} {p : Prop}
    (h : l' = (l.set id ended status).audit id ended ∨ p ∧ l' = l.set id ended status) :
    l'.names = l.names ∧ l'.creations = l.creations := by
  rcases h with rfl | ⟨_, rfl⟩
  · exact ⟨names_set l id ended status, rfl⟩
  · exact ⟨names_set l id ended status, rfl⟩

/-- Only a start gives a name. -/
theorem Lives.names {op : Op} {s s' : SessionTx} (h : Lives op s s') (hopens : op.opens = false) :
    s'.life.names = s.life.names ∧ s'.life.creations = s.life.creations := by
  cases h with
  | stays hlife =>
    rw [hlife]
    exact ⟨rfl, rfl⟩
  | mints _ _ _ _ _ _ _ hstart =>
    rw [hopens] at hstart
    cases hstart
  | ends _ _ _ _ _ hlife => exact names_of_move hlife
  | reopens _ _ _ hlife => exact names_of_move hlife

section Reserve

variable {s : SessionTx} {requested : Text} {taken : List Text}

theorem suffixed_inj {m n : Nat} (h : suffixed requested m = suffixed requested n) : m = n := by
  have hdigits : (Nat.repr m).toList = (Nat.repr n).toList :=
    (List.cons.inj (List.append_cancel_left h)).2
  rw [Nat.toList_repr, Nat.toList_repr] at hdigits
  calc m = Nat.ofDigitChars 10 (Nat.toDigits 10 m) 0 := Nat.ofDigitChars_ten_toDigits.symm
    _ = Nat.ofDigitChars 10 (Nat.toDigits 10 n) 0 := by rw [hdigits]
    _ = n := Nat.ofDigitChars_ten_toDigits

/-- The loop stops at a suffix that is free, or all it has tried are taken. -/
theorem freeSuffix_spec (taken : List Text) (requested : Text) (fuel suffix : Nat) :
    (∃ n, suffix ≤ n ∧ freeSuffix taken requested fuel suffix = suffixed requested n) ∧
      (freeSuffix taken requested fuel suffix ∈ taken →
        ∀ n, suffix ≤ n → n ≤ suffix + fuel → suffixed requested n ∈ taken) := by
  induction fuel generalizing suffix with
  | zero =>
    refine ⟨⟨suffix, le_rfl, rfl⟩, fun hin n hle hge => ?_⟩
    have hn : n = suffix := by omega
    rw [hn]
    exact hin
  | succ fuel ih =>
    obtain ⟨⟨n, hle, hn⟩, htried⟩ := ih (suffix + 1)
    rw [freeSuffix]
    split
    next htaken =>
      refine ⟨⟨n, by omega, hn⟩, fun hin m hm hbound => ?_⟩
      by_cases hfirst : m = suffix
      · rw [hfirst]
        exact htaken
      · exact htried hin m (by omega) (by omega)
    next hfree => exact ⟨⟨suffix, le_rfl, rfl⟩, fun hin => absurd hin hfree⟩

theorem freeSuffix_free (start : Nat) :
    freeSuffix taken requested taken.length start ∉ taken := by
  intro hin
  have htried := (freeSuffix_spec taken requested taken.length start).2 hin
  have hnodup : ((List.range' start (taken.length + 1)).map (suffixed requested)).Nodup :=
    List.Nodup.map (fun _ _ => suffixed_inj) List.nodup_range'
  have hsub : (List.range' start (taken.length + 1)).map (suffixed requested) ⊆ taken := by
    intro name hname
    obtain ⟨n, hn, rfl⟩ := List.mem_map.mp hname
    have hbounds := List.mem_range'_1.mp hn
    exact htried n hbounds.1 (by omega)
  have hlength := (hnodup.subperm hsub).length_le
  rw [List.length_map, List.length_range'] at hlength
  omega

theorem asText?_eq_some {v : Value} {t : Text} : v.asText? = some t ↔ v = .text t := by
  cases v <;> simp [Value.asText?]

theorem mem_takenNames {name : Text} :
    name ∈ takenNames s requested ↔ (∃ r ∈ s.inquiries.rows, r.kind = .agentSession ∧
      r.owner = .text name) ∧ (name = requested ∨ requested ++ ['#'] <+: name) := by
  unfold takenNames
  rw [List.mem_filterMap]
  constructor
  · rintro ⟨r, hr, htaken⟩
    split at htaken
    next hkind =>
      obtain ⟨howner, hmatch⟩ := (Option.filter_eq_some_iff ..).mp htaken
      rw [Bool.or_eq_true, decide_eq_true_eq, List.isPrefixOf_iff_prefix] at hmatch
      exact ⟨⟨r, hr, hkind, asText?_eq_some.mp howner⟩, hmatch⟩
    next => cases htaken
  · rintro ⟨⟨r, hr, hkind, howner⟩, hmatch⟩
    refine ⟨r, hr, ?_⟩
    rw [if_pos hkind, howner]
    refine (Option.filter_eq_some_iff ..).mpr ⟨rfl, ?_⟩
    rwa [Bool.or_eq_true, decide_eq_true_eq, List.isPrefixOf_iff_prefix]

/-- The name that is reserved is no session's, live or ended. -/
theorem reserve_free : ∀ r ∈ s.inquiries.rows, r.kind = .agentSession →
    r.owner ≠ .text (reserveSessionActor s requested) := by
  intro r hr hkind howner
  have htaken : (reserveSessionActor s requested = requested ∨
      requested ++ ['#'] <+: reserveSessionActor s requested) →
      reserveSessionActor s requested ∈ takenNames s requested :=
    fun hname => mem_takenNames.mpr ⟨⟨r, hr, hkind, howner⟩, hname⟩
  unfold reserveSessionActor at htaken
  dsimp only at htaken
  split at htaken
  next hfree => exact hfree (htaken (Or.inl rfl))
  next =>
    obtain ⟨⟨n, _, hn⟩, _⟩ :=
      freeSuffix_spec (takenNames s requested) requested (takenNames s requested).length 2
    refine freeSuffix_free 2 (htaken (Or.inr ?_))
    rw [hn, suffixed]
    exact ⟨(Nat.repr n).toList, by simp⟩

end Reserve

section Desk

variable {ι : Type} {starts : ι → Start} {d d' : Desk ι}

/-- What a call has come to is a session under its name. -/
def Phase.Sound (names : List (UUID × Value)) : Phase → Prop
  | .inserted id => ∃ owner, (id, owner) ∈ names
  | .granted id owner => (id, .text owner) ∈ names
  | _ => True

/-- Every session has a name of its own, and the calls know theirs. -/
structure Desk.Named (d : Desk ι) : Prop where
  texts : ∀ n ∈ d.store.life.names, ∃ name, n.2 = .text name
  apart : (d.store.life.names.map Prod.snd).Nodup
  created : ∀ id, (id, .agentSession) ∈ d.store.life.creations →
    ∃ owner, (id, owner) ∈ d.store.life.names
  phases : ∀ i, (d.phases i).Sound d.store.life.names

theorem Phase.Sound.mono {names names' : List (UUID × Value)} {p : Phase}
    (h : p.Sound names) (hsub : names ⊆ names') : p.Sound names' := by
  cases p with
  | inserted id =>
    obtain ⟨owner, hmem⟩ := h
    exact ⟨owner, hsub hmem⟩
  | granted id owner => exact hsub h
  | called => trivial
  | missed => trivial
  | reserving => trivial
  | inserting => trivial
  | failed => trivial

theorem Desk.Named.carry {s : SessionTx} {phases : ι → Phase} (h : d.Named)
    (hsame : s.life.names = d.store.life.names ∧ s.life.creations = d.store.life.creations)
    (hphases : ∀ i, (phases i).Sound d.store.life.names) : Desk.Named ⟨s, phases⟩ := by
  obtain ⟨hnames, hcreations⟩ := hsame
  refine ⟨?_, ?_, ?_, ?_⟩
  · show ∀ n ∈ s.life.names, _
    rw [hnames]
    exact h.texts
  · show (s.life.names.map Prod.snd).Nodup
    rw [hnames]
    exact h.apart
  · show ∀ id, _ ∈ s.life.creations → ∃ owner, _ ∈ s.life.names
    rw [hnames, hcreations]
    exact h.created
  · show ∀ i, (phases i).Sound s.life.names
    rw [hnames]
    exact hphases

theorem name_of_find {s : SessionTx} {row : Inquiry} (h : row ∈ s.inquiries.rows)
    (hkind : row.kind = .agentSession) : (row.id, row.owner) ∈ s.life.names :=
  mem_names.mpr ⟨row.life, List.mem_map.mpr ⟨row, h, rfl⟩, hkind, rfl, rfl⟩

theorem find_of_name {s : SessionTx} {id : UUID} {owner : Value}
    (h : (id, owner) ∈ s.life.names) : ∃ row, s.inquiries.find? id = some row ∧
      row.kind = .agentSession ∧ row.owner = owner := by
  obtain ⟨r, hr, hkind, rfl, rfl⟩ := mem_names.mp h
  obtain ⟨row, hrow, rfl⟩ := mem_life hr
  exact ⟨row, hrow, hkind, rfl⟩

theorem ownerOf_name {s : SessionTx} {id : UUID} {name : Text}
    (h : (id, .text name) ∈ s.life.names) : ownerOf s id = name := by
  obtain ⟨row, hrow, _, howner⟩ := find_of_name h
  rw [ownerOf, hrow, Option.bind_some, howner]
  rfl

theorem Desk.Named.ownerOf (h : d.Named) {id : UUID} {owner : Value}
    (hname : (id, owner) ∈ d.store.life.names) :
    (id, .text (Sessions.ownerOf d.store id)) ∈ d.store.life.names := by
  obtain ⟨name, hname'⟩ := h.texts _ hname
  dsimp only at hname'
  subst hname'
  rwa [ownerOf_name hname]

/-- Two sessions of one name are one. -/
theorem Desk.Named.same (h : d.Named) {id id' : UUID} {owner : Value}
    (hname : (id, owner) ∈ d.store.life.names) (hname' : (id', owner) ∈ d.store.life.names) :
    id = id' :=
  congrArg Prod.fst (List.inj_on_of_nodup_map h.apart hname hname' rfl)

theorem named_initial {s : SessionTx} (hnone : ∀ row ∈ s.inquiries.rows, row.kind ≠ .agentSession)
    (hlog : ∀ row ∈ s.changeLog.rows, row.subjectKind ≠ .agentSession) :
    Desk.Named { store := s, phases := fun _ : ι => .called } := by
  have hnames : s.life.names = [] := by
    refine List.filterMap_eq_nil_iff.mpr fun r hr => ?_
    obtain ⟨row, hrow, rfl⟩ := List.mem_map.mp hr
    exact if_neg (hnone row hrow)
  refine ⟨?_, ?_, ?_, fun i => trivial⟩
  · show ∀ n ∈ s.life.names, _
    rw [hnames]
    exact nofun
  · show (s.life.names.map Prod.snd).Nodup
    rw [hnames]
    exact List.nodup_nil
  · intro id hid
    obtain ⟨row, hrow, hthis⟩ := List.mem_filterMap.mp hid
    split at hthis
    next =>
      obtain ⟨_, hkind⟩ := Prod.mk.inj (Option.some.inj hthis)
      exact absurd hkind (hlog row hrow)
    next => cases hthis

theorem isLiveOwner_iff {r : Inquiry} :
    r.isLiveOwner = true ↔ r.kind = .agentSession ∧ r.owner ≠ .null ∧ r.ended = .null := by
  unfold Inquiry.isLiveOwner
  rw [Bool.and_eq_true, Bool.and_eq_true, decide_eq_true_eq, decide_eq_true_eq,
    decide_eq_true_eq, and_assoc]

theorem checkRow_run {id : UUID} {tx : Tx} {row : Inquiry}
    (hrow : tx.inquiries.find? id = some row) (hcheck : row.lifecycleCheck = true)
    (halone : ownsAlone tx.inquiries row = true) : checkRow id tx = .ok ((), tx) := by
  rw [checkRow, get_bind_ok, hrow]
  exact ensure_bind_ok.mpr ⟨hcheck, ensure_ok.mpr ⟨halone, rfl⟩⟩

/-- A move of a session's end leaves every row its id, kind and name. -/
theorem setLifecycle_keeps (id : UUID) (ended status : Value) (r : Inquiry) :
    (setLifecycle id ended status r).kind = r.kind ∧
      (setLifecycle id ended status r).owner = r.owner := by
  have hlife := setLifecycle_life id ended status r
  split at hlife
  next => exact ⟨congrArg LifeRow.kind hlife, congrArg LifeRow.owner hlife⟩
  next => exact ⟨congrArg LifeRow.kind hlife, congrArg LifeRow.owner hlife⟩

theorem reopened_check {row : Inquiry} (hkind : row.kind = .agentSession) :
    (setLifecycle row.id .null active row).lifecycleCheck = true := by
  have hlife := setLifecycle_life row.id .null active row
  rw [if_pos (show row.life.id = row.id from rfl)] at hlife
  have hended : (setLifecycle row.id .null active row).ended = .null :=
    congrArg LifeRow.ended hlife
  have hstatus : (setLifecycle row.id .null active row).status = active :=
    congrArg LifeRow.status hlife
  rw [Inquiry.lifecycleCheck, (setLifecycle_keeps _ _ _ row).1, if_pos hkind, hended, hstatus]
  decide

/-- The statement that re-opens a session meets the constraints. -/
theorem Desk.Named.reopens (h : d.Named) {row : Inquiry} (hrow : row ∈ d.store.inquiries.rows)
    (hkind : row.kind = .agentSession) :
    ∃ tx, updateLifecycle row.id .null active d.store.toTx = .ok ((), tx) := by
  have hfind : (d.store.inquiries.update (setLifecycle row.id .null active)
      (setLifecycle_id _ _ _)).find? row.id = some (setLifecycle row.id .null active row) := by
    rw [Table.find?_update, Table.find?_eq_some.mpr ⟨hrow, rfl⟩, Option.map_some]
  refine ⟨_, bind_ok.mpr ⟨(), _, rfl, checkRow_run hfind (reopened_check hkind) ?_⟩⟩
  unfold ownsAlone
  rw [Bool.or_eq_true, List.all_eq_true]
  refine Or.inr fun other hother => ?_
  obtain ⟨old, hold, rfl⟩ := List.mem_map.mp hother
  obtain ⟨hkind', howner'⟩ := setLifecycle_keeps row.id .null active old
  rw [Bool.or_eq_true, Bool.or_eq_true, Bool.not_eq_true', decide_eq_true_eq, decide_eq_true_eq,
    or_assoc]
  by_cases hlive : (setLifecycle row.id .null active old).isLiveOwner = true
  · by_cases hsame : old.owner = row.owner
    · refine Or.inl ?_
      have hoccupied := (isLiveOwner_iff.mp hlive).1
      have hname := name_of_find hold (hkind' ▸ hoccupied)
      rw [hsame] at hname
      rw [setLifecycle_id, setLifecycle_id]
      exact h.same hname (name_of_find hrow hkind)
    · refine Or.inr (Or.inr ?_)
      rwa [howner', (setLifecycle_keeps _ _ _ row).2]
  · exact Or.inr (Or.inl (Bool.eq_false_of_not_eq_true hlive))

variable [DecidableEq ι]

theorem sound_update {names : List (UUID × Value)} {phases : ι → Phase} {i : ι} {p : Phase}
    (h : ∀ j, (phases j).Sound names) (hp : p.Sound names) :
    ∀ j, (Function.update phases i p j).Sound names := by
  intro j
  rw [Function.update_apply]
  split
  next => exact hp
  next => exact h j

theorem Desk.Named.move {i : ι} {s : SessionTx} {p : Phase} (h : d.Named)
    (hsame : s.life.names = d.store.life.names ∧ s.life.creations = d.store.life.creations)
    (hp : p.Sound d.store.life.names) : (d.move i (s, p)).Named :=
  h.carry hsame (sound_update h.phases hp)

/-- A resume grants the session it re-attaches under the name that it has. -/
theorem resume_result {now : Int} {target : Target} {rooms : List Text} {origin : Origin}
    {hide : Option (Except StoreError Unit)} {s s' : SessionTx} {result : Option (UUID × Value)}
    (h : resumeSession now target rooms origin hide s = .ok (result, s')) :
    result = (resumed s origin.apiKeyId target).map fun row => (row.id, row.owner) := by
  rw [resumeSession, get_bind_ok] at h
  cases hresumed : resumed s origin.apiKeyId target with
  | none =>
    rw [hresumed] at h
    cases h
    rfl
  | some row =>
    rw [hresumed] at h
    dsimp only at h
    obtain ⟨_, s₁, _, h⟩ := bind_ok.mp h
    obtain ⟨_, s₂, _, h⟩ := bind_ok.mp h
    obtain ⟨_, s₃, _, hret⟩ := bind_ok.mp h
    cases hret
    rfl

theorem resumed_kind {s : SessionTx} {apiKeyId : Option UUID} {target : Target} {row : Inquiry}
    (h : resumed s apiKeyId target = some row) : row.kind = .agentSession := by
  cases target with
  | cliSession cliSessionId =>
    have hmatch := List.find?_some h
    rw [Bool.and_eq_true, Bool.and_eq_true] at hmatch
    exact of_decide_eq_true hmatch.1.1
  | attach id =>
    obtain ⟨_, hkind⟩ := (Option.filter_eq_some_iff ..).mp h
    exact of_decide_eq_true hkind

theorem Desk.Named.resume (h : d.Named) (i : ι) (now : Int) (start : Start) :
    (d.move i (start.resume now d.store)).Named := by
  unfold Start.resume
  cases start.target with
  | none => exact h.move ⟨rfl, rfl⟩ trivial
  | some target =>
    dsimp only
    split
    next id owner s' hrun =>
      have hlives := (resume_turn hrun).1.names rfl
      refine h.move hlives ?_
      obtain ⟨row, hrow, heq⟩ := Option.map_eq_some_iff.mp (resume_result hrun).symm
      cases heq
      have hname : (row.id, row.owner) ∈ d.store.life.names :=
        name_of_find (Table.find?_eq_some.mp (resumed_find hrow)).1 (resumed_kind hrow)
      obtain ⟨name, howner⟩ := h.texts _ hname
      dsimp only at howner
      show (row.id, Value.text (row.owner.asText?.getD [])) ∈ _
      rw [howner] at hname ⊢
      exact hname
    next =>
      refine h.move ⟨rfl, rfl⟩ ?_
      split
      next => trivial
      next => trivial
    next => exact h.move ⟨rfl, rfl⟩ trivial

theorem Desk.Named.replay (h : d.Named) (i : ι) (start : Start) :
    (d.move i (d.store, start.replay d.store)).Named := by
  refine h.move ⟨rfl, rfl⟩ ?_
  unfold Start.replay
  split
  next id _ hlookup =>
    obtain ⟨owner, hname⟩ := h.created id (lookup_created hlookup)
    exact h.ownerOf hname
  next => trivial
  next => trivial

/-- The call's insert opens a session: its key is in no use, and no live session has the name. -/
def Start.Opens (start : Start) (granted : Text) (s : SessionTx) : Prop :=
  start.effectiveKey.bind s.changeLog.find? = none ∧
    ∀ r ∈ s.inquiries.rows, r.kind = .agentSession → r.owner = .text granted → r.ended ≠ .null

/-- A call that opens a session gives it a name that no session has, not one that has ended. -/
def Start.NewName (start : Start) (granted : Text) (s : SessionTx) : Prop :=
  start.Opens granted s → ∀ r ∈ s.inquiries.rows, r.kind = .agentSession → r.owner ≠ .text granted

instance decidableOpens (start : Start) (granted : Text) (s : SessionTx) :
    Decidable (start.Opens granted s) :=
  inferInstanceAs (Decidable (_ ∧ _))

instance decidableNewName (start : Start) (granted : Text) (s : SessionTx) :
    Decidable (start.NewName granted s) :=
  inferInstanceAs (Decidable (_ → _))

/-- No call opens a session under the name of one that has ended. -/
def Unclaimed (starts : ι → Start) (d : Desk ι) : Act ι → Prop
  | .insert i _ =>
      match d.phases i with
      | .inserting _ granted => (starts i).NewName granted d.store
      | _ => True
  | _ => True

instance (d : Desk ι) : (a : Act ι) → Decidable (Unclaimed starts d a)
  | .insert i now =>
      match h : d.phases i with
      | .inserting _ granted =>
          decidable_of_iff ((starts i).NewName granted d.store) (by rw [Unclaimed, h])
      | .called | .missed | .reserving _ | .inserted _ | .granted _ _ | .failed _ =>
          isTrue (by rw [Unclaimed, h]; trivial)
  | .resume _ _ | .replay _ | .reserve _ | .readBack _ | .call _ => isTrue trivial

/-- A live row that the index lets stand has a name that no other live session has. -/
theorem owner_alone {inquiries : Table Inquiry.id} {row other : Inquiry}
    (h : ownsAlone inquiries row = true) (hrow : row.isLiveOwner = true)
    (hother : other ∈ inquiries.rows) (hlive : other.isLiveOwner = true)
    (howner : other.owner = row.owner) : other.id = row.id := by
  unfold ownsAlone at h
  rw [hrow, Bool.not_true, Bool.false_or, List.all_eq_true] at h
  have hthis := h other hother
  rw [hlive, Bool.not_true, Bool.or_false, Bool.or_eq_true] at hthis
  rcases hthis with hid | hne
  · exact of_decide_eq_true hid
  · exact absurd howner (of_decide_eq_true hne)

/-- A start that opens a session has a key in no use, and appends its name, which no live session
has. -/
theorem start_names {now : Nat} {body : SubmitAgentSession} {owner audience : Text}
    {origin : Origin} {s s' : SessionTx} {id : UUID}
    (h : submitAgentsession now body owner audience origin s = .ok (id, s')) :
    (id, .agentSession) ∈ s.life.creations ∧ s'.life = s.life ∨
      s'.life.names = s.life.names ++ [(id, .text owner)] ∧
      s'.life.creations = s.life.creations ++ [(id, .agentSession)] ∧
      (body.idempotencyKey.or s.clientChangeId).bind s.changeLog.find? = none ∧
      ∀ r ∈ s.inquiries.rows, r.kind = .agentSession → r.owner = .text owner → r.ended ≠ .null := by
  rcases (start_cases h).2 with hsame | ⟨hunused, hnew, _, hlife, hcheck⟩
  · exact Or.inl hsame
  refine Or.inr ⟨?_, ?_, hunused, ?_⟩
  · rw [hlife]
    unfold Life.names
    rw [List.filterMap_append]
    rfl
  · rw [hlife]
  · intro r hr hkind howner hlive
    have hin : ∀ x ∈ s.life.rows, x ∈ s'.life.rows := by
      intro x hx
      rw [hlife]
      exact List.mem_append_left _ hx
    have hlast : (⟨id, .agentSession, .text owner, .null, body.status⟩ : LifeRow) ∈
        s'.life.rows := by
      rw [hlife]
      exact List.mem_append_right _ (List.mem_singleton_self _)
    obtain ⟨row, hrow, hrowlife⟩ := mem_life hlast
    obtain ⟨other, hother, hotherlife⟩ := mem_life (hin r.life (List.mem_map.mpr ⟨r, hr, rfl⟩))
    have hrowlive : row.isLiveOwner = true := by
      rw [isLiveOwner_iff]
      exact ⟨congrArg LifeRow.kind hrowlife,
        (congrArg LifeRow.owner hrowlife).trans_ne (by simp), congrArg LifeRow.ended hrowlife⟩
    have hotherowner : other.owner = .text owner :=
      (congrArg LifeRow.owner hotherlife).trans howner
    have hotherlive : other.isLiveOwner = true := by
      rw [isLiveOwner_iff]
      exact ⟨(congrArg LifeRow.kind hotherlife).trans hkind, hotherowner.trans_ne (by simp),
        (congrArg LifeRow.ended hotherlife).trans hlive⟩
    have hsame := owner_alone (hcheck row hrow).2 hrowlive (Table.find?_eq_some.mp hother).1
      hotherlive (hotherowner.trans (congrArg LifeRow.owner hrowlife).symm)
    have hid : r.id = id := by
      rw [Table.find?_key hother, Table.find?_key hrow] at hsame
      exact hsame
    exact (Table.find?_eq_none.mp hnew) r hr hid

theorem Desk.Named.insert (h : d.Named) {i : ι} {now attempts : Nat} {granted : Text}
    {start : Start}
    (hfree : start.NewName granted d.store) :
    (d.move i (start.insert now attempts granted d.store)).Named := by
  unfold Start.insert
  split
  next id s' hrun =>
    rcases start_names hrun with ⟨hcreated, hsame⟩ | ⟨hnames, hcreations, hunused, hended⟩
    · exact h.move ⟨congrArg Life.names hsame, congrArg Life.creations hsame⟩ (h.created id hcreated)
    · have hnames' : s'.life.names = d.store.life.names ++ [(id, .text granted)] := hnames
      have hcreations' : s'.life.creations = d.store.life.creations ++ [(id, .agentSession)] :=
        hcreations
      refine ⟨?_, ?_, ?_, ?_⟩
      · show ∀ n ∈ s'.life.names, _
        rw [hnames']
        intro n hn
        rcases List.mem_append.mp hn with hold | hone
        · exact h.texts n hold
        · exact ⟨granted, by rw [List.mem_singleton.mp hone]⟩
      · show (s'.life.names.map Prod.snd).Nodup
        rw [hnames', List.map_append, List.nodup_append]
        refine ⟨h.apart, List.nodup_singleton _, ?_⟩
        intro owner howner owner' hone hsame
        obtain ⟨⟨id', _⟩, hname, rfl⟩ := List.mem_map.mp howner
        rw [List.map_singleton, List.mem_singleton] at hone
        dsimp only at hsame hone
        rw [hsame, hone] at hname
        obtain ⟨row, hrow, hkind, howner⟩ := find_of_name hname
        have hmem := (Table.find?_eq_some.mp hrow).1
        exact hfree ⟨hunused, hended⟩ row hmem hkind howner
      · show ∀ id', _ ∈ s'.life.creations → ∃ owner, _ ∈ s'.life.names
        rw [hnames', hcreations']
        intro id' hid'
        rcases List.mem_append.mp hid' with hold | hone
        · obtain ⟨owner, hname⟩ := h.created id' hold
          exact ⟨owner, List.mem_append_left _ hname⟩
        · obtain ⟨rfl, _⟩ := Prod.mk.inj (List.mem_singleton.mp hone)
          exact ⟨.text granted, List.mem_append_right _ (List.mem_singleton_self _)⟩
      · show ∀ j, (Function.update d.phases i _ j).Sound s'.life.names
        rw [hnames']
        refine sound_update (fun j => (h.phases j).mono (List.subset_append_left _ _)) ?_
        exact ⟨.text granted, List.mem_append_right _ (List.mem_singleton_self _)⟩
  next =>
    refine h.move ⟨rfl, rfl⟩ ?_
    split
    next => trivial
    next => trivial
  next => exact h.move ⟨rfl, rfl⟩ trivial

theorem Desk.Named.step (h : d.Named) {a : Act ι} (hfree : Unclaimed starts d a)
    (hstep : Desk.step starts d a = some d') : d'.Named := by
  cases a with
  | resume i now =>
    rw [Desk.step] at hstep
    split at hstep
    next =>
      cases hstep
      exact h.resume i now (starts i)
    next => cases hstep
  | replay i =>
    rw [Desk.step] at hstep
    split at hstep
    next =>
      cases hstep
      exact h.replay i (starts i)
    next => cases hstep
  | reserve i =>
    rw [Desk.step] at hstep
    split at hstep
    next =>
      cases hstep
      exact h.move ⟨rfl, rfl⟩ trivial
    next => cases hstep
  | insert i now =>
    rw [Desk.step] at hstep
    split at hstep
    next attempts granted hphase =>
      cases hstep
      rw [Unclaimed, hphase] at hfree
      exact h.insert hfree
    next => cases hstep
  | readBack i =>
    rw [Desk.step] at hstep
    split at hstep
    next id hphase =>
      cases hstep
      have hsound := h.phases i
      rw [hphase] at hsound
      obtain ⟨owner, hname⟩ := hsound
      exact h.move ⟨rfl, rfl⟩ (h.ownerOf hname)
    next => cases hstep
  | call r =>
    rw [Desk.step] at hstep
    split at hstep
    next => cases hstep
    next hopens =>
      cases hstep
      have hlives := (r.turn d.store).1
      exact h.carry (hlives.names (Bool.eq_false_of_not_eq_true hopens)) h.phases

/-- While no start opens a session under the name of one that has ended, no two sessions have one
name, no two calls are granted one name for different sessions, and a session can always be
re-opened. A name that a start has just read to be free is no session's. -/
theorem names_reserved {s : SessionTx}
    (hnone : ∀ row ∈ s.inquiries.rows, row.kind ≠ .agentSession)
    (hlog : ∀ row ∈ s.changeLog.rows, row.subjectKind ≠ .agentSession)
    {trace : List (Act ι)} (hfree : Trace.Along (Desk.step starts) (Unclaimed starts) { store := s } trace)
    (hrun : Trace.run (Desk.step starts) { store := s } trace = some d) :
    (∀ r ∈ d.store.inquiries.rows, ∀ r' ∈ d.store.inquiries.rows, r.kind = .agentSession →
      r'.kind = .agentSession → r.owner = r'.owner → r = r') ∧
    (∀ i j id id' name, d.phases i = .granted id name → d.phases j = .granted id' name →
      id = id') ∧
    (∀ row ∈ d.store.inquiries.rows, row.kind = .agentSession →
      ∃ tx, updateLifecycle row.id .null active d.store.toTx = .ok ((), tx)) ∧
    ∀ i d', Desk.step starts d (.reserve i) = some d' → ∀ attempts granted,
      d'.phases i = .inserting attempts granted →
        ∀ r ∈ d'.store.inquiries.rows, r.kind = .agentSession → r.owner ≠ .text granted := by
  have hnamed : d.Named := by
    refine Trace.run_keeps_along (I := fun _ d => d.Named) (named_initial hnone hlog) ?_ hfree hrun
    exact fun hd hclaim hstep => hd.step hclaim hstep
  refine ⟨?_, ?_, ?_, ?_⟩
  · intro r hr r' hr' hkind hkind' howner
    have hname' := name_of_find hr' hkind'
    rw [← howner] at hname'
    exact Table.eq_of_key_eq hr hr' (hnamed.same (name_of_find hr hkind) hname')
  · intro i j id id' name hi hj
    have hgranted := hnamed.phases i
    have hgranted' := hnamed.phases j
    rw [hi] at hgranted
    rw [hj] at hgranted'
    exact hnamed.same hgranted hgranted'
  · exact fun row hrow hkind => hnamed.reopens hrow hkind
  · intro i d' hstep attempts' granted hinserting
    rw [Desk.step] at hstep
    split at hstep
    next attempts _ =>
      cases hstep
      have hphase : (d.move i (d.store, .inserting attempts (reserveSessionActor d.store
          (starts i).requested))).phases i = .inserting attempts _ := Function.update_self ..
      obtain ⟨_, rfl⟩ := Phase.inserting.inj (hphase.symm.trans hinserting)
      exact reserve_free
    next => cases hstep

/-- Two calls that ask for one name. -/
def twoStarts (_ : Bool) : Start where
  body := { title := .text "run".toList, account := .text "ann".toList }
  requested := "claude".toList
  audience := "open".toList

def opening (i : Bool) : List (Act Bool) :=
  [.resume i 0, .replay i, .reserve i]

def inserting (i : Bool) : List (Act Bool) :=
  [.insert i 0, .readBack i]

def ending : Act Bool :=
  .call { op := .endSession 1 10 none { actor := "claude".toList } }

/-- The second call reads after the first session has ended. -/
theorem names_reserved_turns : ∃ d,
    Trace.run (Desk.step twoStarts) {} (opening false ++ inserting false ++ [ending] ++
      opening true ++ inserting true) = some d ∧
    d.phases false = .granted 1 "claude".toList ∧ d.phases true = .granted 2 "claude#2".toList ∧
    ∀ row ∈ d.store.inquiries.rows, row.kind = .agentSession →
      ∃ tx, updateLifecycle row.id .null active d.store.toTx = .ok ((), tx) := by
  have hend : (Trace.run (Desk.step twoStarts) {} (opening false ++ inserting false ++ [ending] ++
      opening true ++ inserting true)).any (fun d => decide
        (d.phases false = .granted 1 "claude".toList ∧
          d.phases true = .granted 2 "claude#2".toList)) = true := by
    decide +kernel
  have hfree : Trace.Along (Desk.step twoStarts) (Unclaimed twoStarts) {} (opening false ++ inserting false ++
      [ending] ++ opening true ++ inserting true) := by
    decide +kernel
  obtain ⟨d, hrun, hgranted⟩ := (Option.any_eq_true _ _).mp hend
  obtain ⟨hfirst, hsecond⟩ := of_decide_eq_true hgranted
  have hnone : ∀ row ∈ (∅ : Table Inquiry.id).rows, row.kind ≠ .agentSession :=
    List.forall_mem_nil _
  have hlog : ∀ row ∈ (∅ : Table Change.id).rows, row.subjectKind ≠ .agentSession :=
    List.forall_mem_nil _
  exact ⟨d, hrun, hfirst, hsecond, (names_reserved hnone hlog hfree hrun).2.2.1⟩

/-- The first session ends between the second call's read and its insert: both are granted one
name, and the first session cannot be re-opened. -/
theorem name_reused : ∃ d,
    Trace.run (Desk.step twoStarts) {} (opening false ++ opening true ++ inserting false ++
      [ending] ++ inserting true) = some d ∧
    d.phases false = .granted 1 "claude".toList ∧ d.phases true = .granted 2 "claude".toList ∧
    (updateLifecycle 1 .null active d.store.toTx).toOption = none := by
  have hend : (Trace.run (Desk.step twoStarts) {} (opening false ++ opening true ++
      inserting false ++ [ending] ++ inserting true)).any (fun d => decide
        (d.phases false = .granted 1 "claude".toList ∧
          d.phases true = .granted 2 "claude".toList) &&
        (updateLifecycle 1 .null active d.store.toTx).toOption.isNone) = true := by
    decide +kernel
  obtain ⟨d, hrun, hgranted⟩ := (Option.any_eq_true _ _).mp hend
  obtain ⟨hphases, hrefused⟩ := (Bool.and_eq_true _ _).mp hgranted
  obtain ⟨hfirst, hsecond⟩ := of_decide_eq_true hphases
  exact ⟨d, hrun, hfirst, hsecond, Option.isNone_iff_eq_none.mp hrefused⟩

end Desk

end Sessions

end Trackinizer
