import Trackinizer.AskReleaseSafety

namespace Trackinizer.Asks

open Keyed Transact Interleave

section Alone

variable {β : Type} {c : AskCodec} {s s₀ s' : SessionStore β} {sessionId : UUID} {call : Call}

/-- The session takes records. -/
def Takes (s : SessionStore β) (sessionId : UUID) : Prop :=
  ∃ session, s.sessions.find? sessionId = some session ∧ session.kind = .agentSession ∧
    session.ended = none

/-- Only a session that takes no record refuses an append. -/
theorem appendSessionRecords_not_conflict {rows : List CapturedRow} {message : String}
    (htakes : Takes s sessionId) :
    appendSessionRecords sessionId rows false s ≠ .error (.conflict message) := by
  intro h
  obtain ⟨session, hfind, hkind, hended⟩ := htakes
  rw [appendSessionRecords, ite_run] at h
  split at h
  next => cases h
  next =>
    rw [bind_run (get_run s), hfind, orThrow, bind_run (pure_run session s), ensure_bind_raises,
      ensure_bind_raises] at h
    rcases h with ⟨hnot, _⟩ | ⟨_, ⟨hnot, _⟩ | ⟨_, h⟩⟩
    · exact hnot hkind
    · exact hnot hended
    · rw [appendLive, bind_run (get_run s), bind_raises] at h
      rcases h with hinsert | ⟨_, t, _, h⟩
      · rw [insertRecords, ensure_bind_raises, bind_run (get_run s), ensure_bind_raises,
          ensure_bind_raises] at hinsert
        rcases hinsert with ⟨_, h⟩ | ⟨_, ⟨_, h⟩ | ⟨_, ⟨_, h⟩ | ⟨_, h⟩⟩⟩ <;> cases h
      · rw [bind_raises] at h
        rcases h with hcipher | ⟨_, _, _, h⟩
        · rw [insertCiphertext, ensure_bind_raises] at hcipher
          rcases hcipher with ⟨_, h⟩ | ⟨_, h⟩ <;> cases h
        · cases h

/-- An upsert that is not exclusive refuses nobody. -/
theorem reserve_not_conflict {manifest : Option SessionManifest} {ids : List Text}
    {message : String} : reserve sessionId call manifest ids s ≠ .error (.conflict message) := by
  intro h
  rw [reserve, upsertSessionManifest, bind_run (get_run s), ensure_bind_raises,
    ensure_bind_raises, ensure_bind_raises] at h
  rcases h with ⟨_, h⟩ | ⟨_, ⟨_, h⟩ | ⟨_, ⟨hnot, _⟩ | ⟨_, h⟩⟩⟩
  · cases h
  · cases h
  · exact hnot fun hfalse => by cases hfalse
  · cases h

/-- The readings of the asks do not differ. -/
structure SameAsks (sessionId : UUID) (s₀ s : SessionStore β) : Prop where
  sessions : s.sessions = s₀.sessions
  live : ∀ r, r ∈ s.records.rows ∧ Live s sessionId r ↔ r ∈ s₀.records.rows ∧ Live s₀ sessionId r

/-- A reservation makes no record live that was not. -/
theorem Upserted.sameAsks {count : Nat} {part : Int}
    (h : Upserted sessionId asksPart (startOf (asksManifest s sessionId) + count) part s s')
    (hinv : StoreInv s sessionId) : SameAsks sessionId s s' := by
  have hresolved := h.resolved
  obtain ⟨row, hkey, hname, hcount, rfl⟩ := h.stored
  refine ⟨rfl, fun r => and_congr_right fun hr => ?_⟩
  have hslot : r.sessionId = sessionId → r.part = part →
      ∃ m, asksManifest s sessionId = some m ∧ m.part = part ∧ r.idx < m.records := by
    rintro hsession hpart
    have hfind : s.records.find? ⟨sessionId, part, r.idx⟩ = some r := by
      rw [Table.find?_eq_some]
      exact ⟨hr, by rw [← hsession, ← hpart]⟩
    rcases resolvePart_cases s sessionId asksPart with ⟨m, hm, hpart'⟩ | ⟨_, habove⟩
    · have hread := hinv.distinct.read hm
      rw [← hresolved] at hpart'
      rw [hpart'] at hfind
      exact ⟨m, hread, hpart'.symm, hinv.counted m hread r.idx r hfind⟩
    · obtain ⟨m, hm, hmsession, hmpart⟩ := hinv.parted part r.idx r hfind
      have hlt := habove m hm hmsession
      omega
  constructor
  · rintro ⟨hsession, hkind, m, hm, hmsession, hmpart, hlt⟩
    rcases Table.mem_upsert.mp hm with rfl | ⟨hold, _⟩
    · have hpart : m.part = part := congrArg PartKey.part hkey
      obtain ⟨m', hm', hpart', hlt'⟩ := hslot hsession (hmpart.symm.trans hpart)
      obtain ⟨hmem, hsession', _⟩ := readSessionManifest_names hm'
      exact ⟨hsession, hkind, m', hmem, hsession'.trans hsession.symm,
        hpart'.trans (hpart.symm.trans hmpart), hlt'⟩
    · exact ⟨hsession, hkind, m, hold, hmsession, hmpart, hlt⟩
  · rintro ⟨hsession, hkind, m, hm, hmsession, hmpart, hlt⟩
    by_cases hsame : m.toPartKey = row.toPartKey
    · have hpart : m.part = part := congrArg PartKey.part (hsame.trans hkey)
      obtain ⟨m', hm', _, hlt'⟩ := hslot hsession (hmpart.symm.trans hpart)
      refine ⟨hsession, hkind, row, Table.mem_upsert.mpr (Or.inl rfl), ?_, ?_, ?_⟩
      · rw [← hmsession, hsame]
      · rw [← hmpart, hsame]
      · rw [hm', startOf, Option.elim_some] at hcount
        omega
    · exact ⟨hsession, hkind, m, Table.mem_upsert.mpr (Or.inr ⟨hm, hsame⟩), hmsession, hmpart, hlt⟩

/-- After its append a call that ran alone has left no ask open. -/
theorem openAskIds_of_append {ids : List Text} {first part : Int}
    (hsame : SameAsks sessionId s₀ s) (hids : ids = openAskIds c s₀ sessionId)
    (happended : Appended (c.releases sessionId call part first ids) false s s')
    (hreturned : PhaseInv c s' sessionId (.returned ids))
    (hopens : ∀ askId ∈ ids, c.jsonText (c.releasePayload askId call.stamp) openedPath = none)
    (hfree : ∀ number < ids.length,
      s.records.find? ⟨sessionId, part, first + (number : Int)⟩ = none) :
    openAskIds c s' sessionId = [] := by
  have hkept : ∀ r ∈ s.records.rows, r ∈ s'.records.rows := by
    intro r hr
    exact Table.mem_iff_find?.mpr (happended.find?_kept (Table.mem_iff_find?.mp hr))
  have hlive : ∀ r, Live s' sessionId r ↔ Live s sessionId r := by
    intro r
    unfold Live
    rw [happended.manifests]
  rw [List.eq_nil_iff_forall_not_mem]
  intro askId hopen
  obtain ⟨⟨r, hr, hrlive, hid⟩, hunresolved⟩ := mem_openAskIds.mp hopen
  -- The record that opens it is no release, so it was there when the call read.
  have hold : r ∈ s.records.rows := by
    by_cases hnew : ∀ number < ids.length,
        r.toRecordKey ≠ ⟨sessionId, part, first + (number : Int)⟩
    · exact Table.mem_iff_find?.mpr
        ((Appended.other happended hnew).symm.trans (Table.mem_iff_find?.mp hr))
    · push Not at hnew
      obtain ⟨number, hnumber, hkey⟩ := hnew
      have hstored := Appended.release happended hnumber (hfree number hnumber)
      have hfind := Table.mem_iff_find?.mp hr
      rw [hkey] at hfind
      obtain rfl := Option.some.inj (hfind.symm.trans hstored)
      have hread := hopens _ (List.getElem_mem hnumber)
      rw [AskCodec.idAt, Option.filter_eq_some_iff] at hid
      exact absurd (hread.symm.trans hid.1) (by simp)
  obtain ⟨hr₀, hlive₀⟩ := (hsame.live r).mp ⟨hold, (hlive r).mp hrlive⟩
  have hopen₀ : askId ∈ openAskIds c s₀ sessionId := by
    refine mem_openAskIds.mpr ⟨⟨r, hr₀, hlive₀, hid⟩, ?_⟩
    rintro ⟨r', hr', hrlive', hid'⟩
    obtain ⟨hr'', hrlive''⟩ := (hsame.live r').mpr ⟨hr', hrlive'⟩
    exact hunresolved ⟨r', hkept r' hr'', (hlive r').mpr hrlive'', hid'⟩
  have hreleased := hreturned askId (hids ▸ hopen₀)
  exact hreleased.not_open hopen

/-- How far a call that runs alone has come since it started. -/
def AloneInv (c : AskCodec) (sessionId : UUID) (s₀ s : SessionStore β) : Phase → Prop
  | .start => s = s₀
  | .listed ids => s = s₀ ∧ ids = openAskIds c s₀ sessionId
  | .placed ids manifest => s = s₀ ∧ ids = openAskIds c s₀ sessionId ∧
      manifest = asksManifest s₀ sessionId
  | .reserved ids _ _ => SameAsks sessionId s₀ s ∧ ids = openAskIds c s₀ sessionId
  | .returned _ => openAskIds c s sessionId = []
  | .raised _ | .crashed => True

end Alone

section Word

variable {β ι : Type} [DecidableEq ι] {cfg : Setting β ι}
  {w w₀ w' : World ι (SessionStore β) Phase}

/-- One transaction of a call that runs alone. -/
theorem aloneInv_step {i : ι} (hreads : cfg.ReadsBack) (htakes : Takes w₀.store cfg.sessionId)
    (hinv : Inv cfg w) (h : AloneInv cfg.codec cfg.sessionId w₀.store w.store (w.phase i))
    (hstep : step cfg w (.release i) = some w') :
    AloneInv cfg.codec cfg.sessionId w₀.store w'.store (w'.phase i) := by
  obtain ⟨next, hnext, rfl⟩ := Option.map_eq_some_iff.mp hstep
  obtain ⟨s, p⟩ := next
  rw [World.write_store, World.write_phase_self]
  have hmine := hinv.phases i
  generalize hphase : w.phase i = before at hnext h hmine
  cases before with
  | start =>
      cases hnext
      have hstore : w.store = w₀.store := h
      rw [hstore]
      split
      next hnone => exact hnone
      next => exact ⟨rfl, rfl⟩
  | listed ids =>
      cases hnext
      obtain ⟨hstore, hids⟩ := h
      rw [hstore]
      exact ⟨rfl, hids, rfl⟩
  | placed ids manifest =>
      obtain ⟨hstore, hids, hmanifest⟩ := h
      rw [releaseStep] at hnext
      cases hrun : reserve cfg.sessionId (cfg.call i) manifest ids w.store with
      | error e =>
          rw [hrun] at hnext
          cases hnext
          cases e with
          | conflict message => exact absurd hrun reserve_not_conflict
          | _ => trivial
      | ok result =>
          obtain ⟨part, t⟩ := result
          rw [hrun] at hnext
          cases hnext
          have hup := upsertSessionManifest_ok hrun
          rw [hmanifest, ← hstore] at hup
          rw [← hstore]
          exact ⟨hup.sameAsks hinv.store, hids.trans (by rw [hstore])⟩
  | reserved ids first part =>
      obtain ⟨hsame, hids⟩ := h
      rw [releaseStep] at hnext
      have htakes' : Takes w.store cfg.sessionId := by
        unfold Takes
        rw [hsame.sessions]
        exact htakes
      cases hrun : appendSessionRecords cfg.sessionId
          (cfg.codec.releases cfg.sessionId (cfg.call i) part first ids) false w.store with
      | error e =>
          rw [hrun] at hnext
          cases hnext
          cases e with
          | conflict message => exact absurd hrun (appendSessionRecords_not_conflict htakes')
          | _ => trivial
      | ok result =>
          obtain ⟨n, t⟩ := result
          rw [hrun] at hnext
          cases hnext
          rcases appendSessionRecords_ok hrun with ⟨hempty, hstore⟩ | happended
          · have hnil : ids = [] := by
              unfold AskCodec.releases at hempty
              rwa [List.mapIdx_eq_nil_iff] at hempty
            show openAskIds cfg.codec s cfg.sessionId = []
            rw [hstore, List.eq_nil_iff_forall_not_mem]
            intro askId hopen
            have hopen₀ : askId ∈ openAskIds cfg.codec w₀.store cfg.sessionId := by
              rw [mem_openAskIds] at hopen ⊢
              simpa only [← and_assoc, hsame.live] using hopen
            rw [← hids, hnil] at hopen₀
            cases hopen₀
          · obtain ⟨hopened, m, hm, hpart, hbound, hfree⟩ := hmine
            have hreturned := (released_of_append happended hinv.store
              ⟨hopened, m, hm, hpart, hbound, hfree⟩
              fun askId ho => (hreads i askId ho).1).2.2
            exact openAskIds_of_append hsame hids happended hreturned
              (fun askId hid => (hreads i askId (hopened askId hid)).2) hfree
  | returned ids => cases hnext
  | raised e => cases hnext
  | crashed => cases hnext

/-- What an ask release is for, in a run of any number of them: an ask a call returned is open in
no later reading, a live record of the releases stays live, and when a call on a session that
takes records ran alone no ask is left open. -/
structure KeepsItsWord (cfg : Setting β ι) (sessions : Table Session.id) (trace : List (Act ι)) :
    Prop where
  closed : ∀ before after u v, trace = before ++ after →
    Trace.run (step cfg) (initial sessions) before = some u →
    Trace.run (step cfg) u after = some v →
    ∀ i ids, u.phase i = .returned ids → ∀ askId ∈ ids,
      askId ∉ openAskIds cfg.codec v.store cfg.sessionId
  kept : ∀ before after u v, trace = before ++ after →
    Trace.run (step cfg) (initial sessions) before = some u →
    Trace.run (step cfg) u after = some v →
    ∀ m, asksManifest u.store cfg.sessionId = some m → ∀ r ∈ u.store.records.rows,
      r.part = m.part → Live u.store cfg.sessionId r →
        r ∈ v.store.records.rows ∧ Live v.store cfg.sessionId r
  alone : ∀ before after u v i, trace = before ++ after →
    Trace.run (step cfg) (initial sessions) before = some u →
    Trace.run (step cfg) u after = some v →
    u.phase i = .start → Takes u.store cfg.sessionId → (∀ a ∈ after, a = .release i) →
    ∀ ids, v.phase i = .returned ids → openAskIds cfg.codec v.store cfg.sessionId = []

/-- A run of releases that each count from the bound as it stands keeps their word. -/
theorem askRuns_keep_word {sessions : Table Session.id} {trace : List (Act ι)}
    (hreads : cfg.ReadsBack)
    (hfresh : Trace.Along (step cfg) (fun w a => a.Fresh cfg w) (initial sessions) trace) :
    KeepsItsWord cfg sessions trace := by
  have hrun : ∀ before after u, trace = before ++ after →
      Trace.run (step cfg) (initial sessions) before = some u →
      Inv cfg u ∧ Trace.Along (step cfg) (fun w a => a.Fresh cfg w) u after := by
    intro before after u htrace hbefore
    rw [htrace] at hfresh
    obtain ⟨hfirst, hrest⟩ := hfresh.append hbefore
    exact ⟨((inv_initial sessions).run hreads hfirst hbefore).1, hrest⟩
  refine ⟨?_, ?_, ?_⟩
  · intro before after u v htrace hbefore hafter i ids hphase askId hid
    obtain ⟨hinv, hrest⟩ := hrun before after u htrace hbefore
    have hreturned := hinv.phases i
    rw [hphase] at hreturned
    have hreleased : Released cfg.codec u.store cfg.sessionId askId := hreturned askId hid
    exact (hreleased.mono (hinv.run hreads hrest hafter).2).not_open
  · intro before after u v htrace hbefore hafter m hm r hr hpart hlive
    obtain ⟨hinv, hrest⟩ := hrun before after u htrace hbefore
    obtain ⟨_, hext⟩ := hinv.run hreads hrest hafter
    obtain ⟨hsession, hkind, _⟩ := hlive
    have hfind : u.store.records.find? ⟨cfg.sessionId, m.part, r.idx⟩ = some r := by
      rw [Table.find?_eq_some]
      exact ⟨hr, by rw [← hsession, ← hpart]⟩
    obtain ⟨m', hm', hpart', hle⟩ := hext.manifest m hm
    have hcounted := hinv.store.counted m hm r.idx r hfind
    obtain ⟨hmem', hsession', _⟩ := readSessionManifest_names hm'
    refine ⟨Table.mem_of_find? (hext.messages m hm r.idx r hfind hkind), hsession, hkind, m',
      hmem', hsession'.trans hsession.symm, hpart'.trans hpart.symm, by omega⟩
  · intro before after u v i htrace hbefore hafter hphase htakes halone ids hreturned
    obtain ⟨hinv, hrest⟩ := hrun before after u htrace hbefore
    have hstart : AloneInv cfg.codec cfg.sessionId u.store u.store (u.phase i) := by
      rw [hphase]
      rfl
    have hend : Inv cfg v ∧ AloneInv cfg.codec cfg.sessionId u.store v.store (v.phase i) := by
      refine Trace.run_keeps_along (P := fun t a => a = .release i ∧ a.Fresh cfg t)
        (I := fun _ t => Inv cfg t ∧
          AloneInv cfg.codec cfg.sessionId u.store t.store (t.phase i))
        ⟨hinv, hstart⟩ ?_ (hrest.and_mem halone) hafter
      rintro _ t a t' ⟨hinv, halone⟩ ⟨rfl, hfresh⟩ hstep
      exact ⟨(hinv.step hreads hfresh hstep).1, aloneInv_step hreads htakes hinv halone hstep⟩
    have hdone := hend.2
    rw [hreturned] at hdone
    exact hdone

end Word

section Overlap

/-- `#>>` on a tree. -/
def textAt : List Text → PlainTree → Option Text
  | [], .str t => some t
  | key :: path, .dict entries => (entries.lookup key).bind (textAt path)
  | _, _ => none

def plainMessage (m : SystemMessage) : List (Text × PlainTree) :=
  [("timestamp".toList, .str m.timestamp), ("content".toList, .str m.content),
    ("subtype".toList, .str m.subtype), ("extra".toList, .dict m.extra)]

theorem plainMessage_unique (m : SystemMessage) : (PlainTree.dict (plainMessage m)).UniqueKeys := by
  have hfields : (["timestamp", "content", "subtype", "extra"].map String.toList).Nodup := by
    decide +kernel
  exact ⟨hfields, trivial, trivial, trivial, m.unique, trivial⟩

/-- A message that opens an ask. -/
def opening (askId : Text) : SystemMessage :=
  { timestamp := []
    subtype := "interaction".toList
    content := "Asked".toList
    extra := [("$interaction".toList, .dict [("id".toList, .str askId)])]
    unique := ⟨List.nodup_singleton _, ⟨List.nodup_singleton _, trivial, trivial⟩, trivial⟩ }

/-- The database on the messages it is known to hold. -/
def knownText (known : List SystemMessage) (payload : Text) (path : List Text) : Option Text :=
  (known.find? fun m => decide (encodedPayload (.dict (plainMessage m)) = payload)).bind
    fun m => textAt path (.dict (plainMessage m))

/-- Two calls on a session whose messages are known. -/
def twoCalls (known : List SystemMessage) : Setting Text Bool :=
  { codec :=
      { toPlain := plainMessage
        unique := plainMessage_unique
        fromIsoformat := fun _ => none
        jsonText := knownText known }
    bodies := ⟨id, .ok, fun _ => rfl⟩
    shardOf := fun _ => 0
    sessionId := 1
    call := fun _ => ⟨[], 7⟩ }

/-- The messages hold the release of every ask they open. -/
def Rereads (known : List SystemMessage) (askId : Text) : Bool :=
  let payload := encodedPayload (.dict (plainMessage (released askId [])))
  decide (knownText known payload resolvedPath = some askId ∧
    knownText known payload openedPath = none)

theorem twoCalls_readsBack {known : List SystemMessage}
    (h : ∀ m ∈ known, (textAt openedPath (.dict (plainMessage m))).all (Rereads known) = true) :
    (twoCalls known).ReadsBack := by
  rintro i askId ⟨_, payload, hread⟩
  obtain ⟨m, hm, hid⟩ := Option.bind_eq_some_iff.mp hread
  have hall := h m (List.mem_of_find?_eq_some hm)
  rw [hid, Option.all_some] at hall
  exact of_decide_eq_true hall

def messages : List SystemMessage :=
  [opening ['x'], opening ['y'], released ['x'] [], released ['y'] []]

theorem messages_readBack : (twoCalls messages).ReadsBack :=
  twoCalls_readsBack (by decide +kernel)

/-- The session, live. -/
def oneSession : Table Session.id :=
  ⟨[{ id := 1, kind := .agentSession }], List.nodup_singleton _⟩

/-- A run's part with room for two asks. -/
def chatPart : Act Bool :=
  .write (.upsertManifest 1 "chat".toList (.dict []) 5 [] 2 none false)

def asked (idx : Int) (askId : Text) : Act Bool :=
  .write (.append 1 [(twoCalls []).codec.row 1 0 idx (opening askId)] false)

/-- The ids a call has returned. -/
def Phase.ids : Phase → Option (List Text)
  | .returned ids => some ids
  | .start | .listed _ | .placed _ _ | .reserved _ _ _ | .raised _ | .crashed => none

theorem returned_of_ids {p : Phase} {ids : List Text} (h : p.ids = some ids) :
    p = .returned ids := by
  cases p with
  | returned ids' =>
      cases h
      rfl
  | _ => cases h

/-- The first call sees one ask and the second two; both read that no release was written, and
the first reserves last. -/
def overlap : List (Act Bool) :=
  [chatPart, asked 0 ['x'], .release false, asked 1 ['y'], .release true, .release false,
    .release true, .release true, .release false, .release false, .release true]

theorem overlap_breaks_word :
    (twoCalls messages).ReadsBack ∧ ¬ KeepsItsWord (twoCalls messages) oneSession overlap := by
  refine ⟨messages_readBack, ?_⟩
  intro h
  have hend : (Trace.run (step (twoCalls messages)) (initial oneSession) overlap).map (fun v =>
      ((v.phase true).ids, openAskIds (twoCalls messages).codec v.store (twoCalls messages).sessionId)) =
        some (some [['x'], ['y']], [['y']]) := by
    decide +kernel
  obtain ⟨v, hrun, hv⟩ := Option.map_eq_some_iff.mp hend
  obtain ⟨hids, hopen⟩ := Prod.mk.inj hv
  have hclosed := h.closed overlap [] v v (by simp) hrun rfl true _ (returned_of_ids hids) ['y']
    (by simp)
  exact hclosed (by simp [hopen])

/-- The same two calls one after the other. -/
def oneAfterOther : List (Act Bool) :=
  [chatPart, asked 0 ['x'], .release false, .release false, .release false, .release false,
    asked 1 ['y'], .release true, .release true, .release true, .release true]

theorem oneAfterOther_keeps_word : KeepsItsWord (twoCalls messages) oneSession oneAfterOther :=
  askRuns_keep_word messages_readBack (by decide +kernel)

end Overlap

end Trackinizer.Asks
