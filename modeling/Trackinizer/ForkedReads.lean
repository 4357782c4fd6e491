import Trackinizer.SessionForks
import Trackinizer.SessionReads

namespace Trackinizer.Forks

open Keyed Transact

section Copied

variable {β : Type} {codec : BodyCodec β} {jsonLoads : Text → Except StoreError PlainTree}
  {source target : UUID} {prefixes : List PartPrefix} {apiKeyId : Option UUID}
  {s s' : SessionStore β} {i : Nat} {p : PartPrefix} {m : SessionManifest}

/-- A row as a part of another session holds it. -/
def atPart (target : UUID) (part : Int) (row : SessionRecordRow) : SessionRecordRow :=
  { row with sessionId := target, part := part }

/-- How many records of a prefix lie past an index. -/
def prefixCount (s : SessionStore β) (source : UUID) (p : PartPrefix) (afterIdx : Int) : Nat :=
  (s.records.rows.filter fun r => decide (r.sessionId = source ∧ r.part = p.part ∧
    afterIdx < r.idx ∧ r.idx < (p.records : Int))).length

/-- The manifest of a prefix's copy. -/
def copiedManifest (target : UUID) (i : Nat) (p : PartPrefix) (apiKeyId : Option UUID)
    (m : SessionManifest) : SessionManifest :=
  { m with
    sessionId := target
    part := i
    records := p.records
    openedByApiKeyId := apiKeyId }

/-- A prefix's copy has the manifest of its part, under its own number, bound and opener. -/
theorem CopiedInto.manifest (h : CopiedInto source target prefixes apiKeyId s s')
    (hp : prefixes[i]? = some p) (hm : s.manifests.find? ⟨source, p.part⟩ = some m) :
    s'.manifests.find? ⟨target, i⟩ = some (copiedManifest target i p apiKeyId m) := by
  obtain ⟨hmem, hkey⟩ := Table.find?_eq_some.mp hm
  obtain ⟨hsession, hpart⟩ := PartKey.mk.inj hkey
  rw [Table.find?_eq_some, h.manifests]
  refine ⟨List.mem_append_right _ (mem_copiedManifests.mpr ?_), rfl⟩
  exact ⟨(p, i), List.mem_zipIdx_iff_getElem?.mpr hp, m, hmem, ⟨hsession, hpart⟩, rfl⟩

/-- A shorter bound on a part leaves a first part of its live records. -/
theorem cut_liveRecords (hidx : ∀ r ∈ s.records.rows, 0 ≤ r.idx) {n : Nat}
    (hn : (n : Int) ≤ m.records) (afterIdx : Int) :
    ∃ rest, liveRecords s m afterIdx = liveRecords s { m with records := n } afterIdx ++ rest := by
  obtain ⟨more, hmore⟩ := Nat.exists_eq_add_of_le (show n ≤ m.records.toNat by omega)
  rw [liveRecords_eq hidx, liveRecords_eq hidx, livePrefix, livePrefix, hmore]
  rw [List.range_add, List.filter_append, List.filterMap_append]
  exact ⟨_, rfl⟩

theorem length_cut_liveRecords (s : SessionStore β) (hkey : m.toPartKey = ⟨source, p.part⟩)
    (afterIdx : Int) :
    (liveRecords s { m with records := p.records } afterIdx).length =
      prefixCount s source p afterIdx := by
  obtain ⟨hsession, hpart⟩ := PartKey.mk.inj hkey
  rw [liveRecords, List.length_mergeSort, prefixCount, hsession, hpart]

/-- The live records of a prefix's copy are the copies of the prefix's. -/
theorem CopiedInto.live (h : CopiedInto source target prefixes apiKeyId s s')
    (hs : ∀ r ∈ s.records.rows, 0 ≤ r.idx) (hnew : ∀ r ∈ s.records.rows, r.sessionId ≠ target)
    (hp : prefixes[i]? = some p) (hkey : m.toPartKey = ⟨source, p.part⟩) (afterIdx : Int) :
    liveRecords s' (copiedManifest target i p apiKeyId m) afterIdx =
      (liveRecords s { m with records := p.records } afterIdx).map fun r =>
        rekeyRecord ⟨target, i, r.idx⟩ r := by
  have hs' : ∀ r ∈ s'.records.rows, 0 ≤ r.idx := by
    intro r hr
    rw [h.records] at hr
    rcases List.mem_append.mp hr with hr | hr
    · exact hs r hr
    · obtain ⟨_, _, old, hold, _, rfl⟩ := mem_copiedRows hr
      exact hs old hold
  obtain ⟨hsession, hpart⟩ := PartKey.mk.inj hkey
  rw [liveRecords_eq hs', liveRecords_eq hs, List.map_filterMap]
  apply List.filterMap_congr
  intro j hj
  rw [livePrefix, List.mem_filter, List.mem_range] at hj
  have hbound : (j : Int) < p.records := by
    have hcopied : (copiedManifest target i p apiKeyId m).records = p.records := rfl
    rw [hcopied, Int.toNat_natCast] at hj
    omega
  have hfound := @find?_copied _ _ rekeyRecord source target prefixes (fun _ _ => rfl) s.records
    s'.records i p h.records hnew hp j hbound
  show s'.records.find? ⟨target, i, j⟩ = _
  rw [hfound, SessionManifest.keyAt, hsession, hpart]
  cases hfind : s.records.find? ⟨source, p.part, j⟩ with
  | none => rfl
  | some r =>
      have hj' : r.idx = j := congrArg RecordKey.idx (Table.find?_key hfind)
      rw [Option.map_some, Option.map_some, hj']

/-- A copied record is served as its original, under its new key. -/
theorem CopiedInto.served (h : CopiedInto source target prefixes apiKeyId s s')
    (hfree : PartFree s target) (hp : prefixes[i]? = some p) (plaintextOnly : Bool)
    {r : StoredRecord} (hsession : r.sessionId = source) (hpart : r.part = p.part)
    (hidx : r.idx < p.records) :
    servedRecord codec jsonLoads s' plaintextOnly (rekeyRecord ⟨target, i, r.idx⟩ r) =
      (servedRecord codec jsonLoads s plaintextOnly r).map (atPart target i) := by
  have hbody := @find?_copied _ _ rekeyBody source target prefixes (fun _ _ => rfl) s.bodies
    s'.bodies i p h.bodies hfree.bodies hp r.idx hidx
  have hsealed := @find?_copied _ _ rekeyCiphertext source target prefixes (fun _ _ => rfl)
    s.ciphertext s'.ciphertext i p h.ciphertext hfree.ciphertext hp r.idx hidx
  have hkey : r.toRecordKey = ⟨source, p.part, r.idx⟩ := by rw [← hsession, ← hpart]
  have hpayloads : (s'.bodies.find? ⟨target, i, r.idx⟩).map (fun b => b.payloadZst) =
      (s.bodies.find? r.toRecordKey).map fun b => b.payloadZst := by
    rw [hbody, hkey, Option.map_map]
    rfl
  have htexts : (s'.bodies.find? ⟨target, i, r.idx⟩).map (fun b => b.textZst) =
      (s.bodies.find? r.toRecordKey).map fun b => b.textZst := by
    rw [hbody, hkey, Option.map_map]
    rfl
  have hbytes : (s'.ciphertext.find? ⟨target, i, r.idx⟩).map (fun c => c.bytes) =
      (s.ciphertext.find? r.toRecordKey).map fun c => c.bytes := by
    rw [hsealed, hkey, Option.map_map]
    rfl
  have hpayload : (rekeyRecord ⟨target, i, r.idx⟩ r).payload = r.payload := rfl
  have htext : (rekeyRecord ⟨target, i, r.idx⟩ r).text = r.text := rfl
  have hrekeyed : (rekeyRecord ⟨target, i, r.idx⟩ r).toRecordKey = ⟨target, i, r.idx⟩ := rfl
  unfold servedRecord
  rw [hpayload, htext, hrekeyed]
  cases plaintextOnly with
  | true =>
      simp only [↓reduceIte, Option.map_none, splicedText, pure, Except.pure, bind, Except.bind]
      cases decodedPayload jsonLoads r.payload with
      | error e => rfl
      | ok payload =>
          rw [Except.map, atPart, hkey]
          rfl
  | false =>
      simp only [Bool.false_eq_true, ↓reduceIte, hpayloads, htexts, hbytes, bind, Except.bind]
      cases splicedPayload codec r.payload
          ((s.bodies.find? r.toRecordKey).map fun b => b.payloadZst) with
      | error e => rfl
      | ok raw =>
          cases splicedText codec r.text ((s.bodies.find? r.toRecordKey).map fun b => b.textZst) with
          | error e => rfl
          | ok text =>
              cases hdecoded : decodedPayload jsonLoads raw with
              | error e => simp only [hdecoded, Except.map]
              | ok payload =>
                  simp only [hdecoded, Except.map, atPart]
                  rw [hkey]
                  rfl

theorem mapM_congr {ε α γ : Type} {f g : α → Except ε γ} {xs : List α}
    (h : ∀ x ∈ xs, f x = g x) : xs.mapM f = xs.mapM g := by
  induction xs with
  | nil => rfl
  | cons x xs ih =>
      rw [List.mapM_cons, List.mapM_cons, h x List.mem_cons_self,
        ih fun y hy => h y (List.mem_cons_of_mem _ hy)]

/-- Reads that agree up to a change of their rows agree so as a whole. -/
theorem mapM_map_of_map {ε α α' γ : Type} {g : α → α'} {f : α' → Except ε γ} {h : α → Except ε γ}
    {w : γ → γ} {xs : List α} (hf : ∀ x ∈ xs, f (g x) = (h x).map w) :
    (xs.map g).mapM f = (xs.mapM h).map (List.map w) := by
  induction xs with
  | nil => rfl
  | cons x xs ih =>
      have hrest := ih fun y hy => hf y (List.mem_cons_of_mem _ hy)
      rw [List.map_cons, List.mapM_cons, List.mapM_cons, hf x List.mem_cons_self, hrest]
      cases h x with
      | error e => rfl
      | ok a =>
          cases xs.mapM h with
          | error e => rfl
          | ok ys => rfl

/-- A part of the copy reads as the first records of its original. -/
theorem CopiedInto.read (h : CopiedInto source target prefixes apiKeyId s s')
    (hs : Constrained s) (hfree : PartFree s target) (hp : prefixes[i]? = some p)
    (hm : s.manifests.find? ⟨source, p.part⟩ = some m) (hwithin : p.records ≤ m.records)
    (afterIdx : Int) (limit : Nat) (plaintextOnly : Bool) :
    readSessionRecords codec jsonLoads s' target i afterIdx limit plaintextOnly =
      (readSessionRecords codec jsonLoads s source p.part afterIdx
        (min limit (prefixCount s source p afterIdx)) plaintextOnly).map
          (List.map (atPart target i)) := by
  have hidx : ∀ r ∈ s.records.rows, 0 ≤ r.idx := by
    intro r hr
    have hchecks := hs.records r hr
    rw [recordChecks, Bool.and_eq_true, decide_eq_true_eq] at hchecks
    exact hchecks.1
  have hkey : m.toPartKey = ⟨source, p.part⟩ := Table.find?_key hm
  obtain ⟨hsession, hpart⟩ := PartKey.mk.inj hkey
  obtain ⟨rest, hrest⟩ := cut_liveRecords hidx hwithin afterIdx
  have hlength := length_cut_liveRecords s hkey afterIdx
  have hfirst : (liveRecords s m afterIdx).take (min limit (prefixCount s source p afterIdx)) =
      (liveRecords s { m with records := p.records } afterIdx).take limit := by
    rw [← List.take_take, hrest, ← hlength, List.take_left]
  unfold readSessionRecords
  rw [h.manifest hp hm, hm]
  dsimp only
  rw [hfirst, h.live hidx hfree.records hp hkey, ← List.map_take]
  apply mapM_map_of_map
  intro r hr
  have hlive := List.mem_of_mem_take hr
  rw [liveRecords, List.mem_mergeSort, List.mem_filter, decide_eq_true_eq] at hlive
  obtain ⟨_, hrsession, hrpart, _, hridx⟩ := hlive
  exact h.served hfree hp plaintextOnly (hrsession.trans hsession) (hrpart.trans hpart) hridx

/-- Past its parts the copy holds nothing. -/
theorem CopiedInto.read_rest (h : CopiedInto source target prefixes apiKeyId s s')
    (hfree : PartFree s target) {part : Int} (hpart : ∀ i < prefixes.length, part ≠ i)
    (afterIdx : Int) (limit : Nat) (plaintextOnly : Bool) :
    readSessionRecords codec jsonLoads s' target part afterIdx limit plaintextOnly = .ok [] := by
  have hnone : s'.manifests.find? ⟨target, part⟩ = none := by
    rw [Table.find?_eq_none, h.manifests]
    intro m hm hkey
    obtain ⟨hsession, hpart'⟩ := PartKey.mk.inj hkey
    rcases List.mem_append.mp hm with hm | hm
    · exact hfree.manifests m hm hsession
    · obtain ⟨copy, hcopy, _, _, _, rfl⟩ := mem_copiedManifests.mp hm
      have hlt := List.snd_lt_of_mem_zipIdx hcopy
      exact hpart copy.2 (by omega) hpart'.symm
  unfold readSessionRecords
  rw [hnone]

end Copied

section Isolation

variable {β : Type} {codec : BodyCodec β} {jsonLoads : Text → Except StoreError PlainTree}
  {shardOf : UUID → Nat} {kept : UUID} {s s' t : SessionStore β}

def ofSession (kept : UUID) (k : RecordKey) : Bool := decide (k.sessionId = kept)

def partOf (kept : UUID) (k : PartKey) : Bool := decide (k.sessionId = kept)

/-- A session's rows are the same in each table. -/
structure SameParts (kept : UUID) (s s' : SessionStore β) : Prop where
  manifests : s'.manifests.share (partOf kept) = s.manifests.share (partOf kept)
  records : s'.records.share (ofSession kept) = s.records.share (ofSession kept)
  ciphertext : s'.ciphertext.share (ofSession kept) = s.ciphertext.share (ofSession kept)
  bodies : s'.bodies.share (ofSession kept) = s.bodies.share (ofSession kept)

theorem SameParts.refl (kept : UUID) (s : SessionStore β) : SameParts kept s s :=
  ⟨rfl, rfl, rfl, rfl⟩

theorem SameParts.trans (h : SameParts kept s s') (h' : SameParts kept s' t) :
    SameParts kept s t :=
  ⟨h'.manifests.trans h.manifests, h'.records.trans h.records,
    h'.ciphertext.trans h.ciphertext, h'.bodies.trans h.bodies⟩

/-- A session reads the same while its own rows do. -/
theorem SameParts.read (h : SameParts kept s s') (part afterIdx : Int) (limit : Nat)
    (plaintextOnly : Bool) :
    readSessionRecords codec jsonLoads s' kept part afterIdx limit plaintextOnly =
      readSessionRecords codec jsonLoads s kept part afterIdx limit plaintextOnly := by
  have hpart : partOf kept ⟨kept, part⟩ = true := decide_eq_true rfl
  have hmanifest : s'.manifests.find? ⟨kept, part⟩ = s.manifests.find? ⟨kept, part⟩ := by
    rw [Table.find?_share hpart, Table.find?_share hpart, h.manifests]
  unfold readSessionRecords
  rw [hmanifest]
  cases hfind : s.manifests.find? ⟨kept, part⟩ with
  | none => rfl
  | some m =>
      have hsession : m.sessionId = kept := congrArg PartKey.sessionId (Table.find?_key hfind)
      have hlive : liveRecords s' m afterIdx = liveRecords s m afterIdx := by
        have hshare : ∀ u : SessionStore β,
            (u.records.rows.filter fun r => decide (r.sessionId = m.sessionId ∧ r.part = m.part ∧
              afterIdx < r.idx ∧ r.idx < m.records)) =
            (u.records.share (ofSession kept)).filter fun r => decide (r.part = m.part ∧
              afterIdx < r.idx ∧ r.idx < m.records) := by
          intro u
          rw [Table.share, List.filter_filter]
          congr 1
          funext r
          rw [hsession, ofSession, Bool.decide_and, Bool.and_comm]
        rw [liveRecords, liveRecords, hshare, hshare, h.records]
      dsimp only
      rw [hlive]
      apply mapM_congr
      intro r hr
      have hmem := List.mem_of_mem_take hr
      rw [liveRecords, List.mem_mergeSort, List.mem_filter, decide_eq_true_eq] at hmem
      have hkey : ofSession kept r.toRecordKey = true :=
        decide_eq_true (hmem.2.1.trans hsession)
      have hbody : s'.bodies.find? r.toRecordKey = s.bodies.find? r.toRecordKey := by
        rw [Table.find?_share hkey, Table.find?_share hkey, h.bodies]
      have hsealed : s'.ciphertext.find? r.toRecordKey = s.ciphertext.find? r.toRecordKey := by
        rw [Table.find?_share hkey, Table.find?_share hkey, h.ciphertext]
      unfold servedRecord
      rw [hbody, hsealed]

/-- The transactions that write parts: a fork's copy among them. -/
inductive PartWrite where
  | write (op : SessionOp)
  | copy (source target : UUID) (prefixes : List PartPrefix) (apiKeyId : Option UUID)

def PartWrite.run (codec : BodyCodec β) (shardOf : UUID → Nat) : PartWrite → SessionM β Unit
  | .write op => op.run codec shardOf
  | .copy source target prefixes apiKeyId => copySessionParts source target prefixes apiKeyId

/-- A transaction writes to other sessions than the kept one. -/
def PartWrite.Spares (shardOf : UUID → Nat) (kept : UUID) (s : SessionStore β) : PartWrite → Prop
  | .write (.append _ rows _) => ∀ row ∈ rows, row.sessionId ≠ kept
  | .write (.upsertManifest sessionId _ _ _ _ _ _ _) => sessionId ≠ kept
  | .write (.offload shards shard batch locked) =>
      ∀ r ∈ offloadPicks shardOf shards shard batch locked s.records, r.sessionId ≠ kept
  | .write (.endSession _ _) => True
  | .copy _ target _ _ => target ≠ kept

theorem share_append_rows {rows : List CapturedRow} {restart : Bool}
    (h : Appended rows restart s s') (hrows : ∀ row ∈ rows, row.sessionId ≠ kept) :
    SameParts kept s s' := by
  have hstored : ∀ r ∈ rows.map CapturedRow.stored, ofSession kept r.toRecordKey = false := by
    intro r hr
    obtain ⟨row, hrow, rfl⟩ := List.mem_map.mp hr
    exact decide_eq_false (hrows row hrow)
  have hsealed : ∀ c ∈ encrypted rows, ofSession kept c.toRecordKey = false := by
    intro c hc
    obtain ⟨row, hrow, hbytes⟩ := List.mem_filterMap.mp hc
    obtain ⟨bytes, _, rfl⟩ := Option.map_eq_some_iff.mp hbytes
    exact decide_eq_false (hrows row hrow)
  refine ⟨by rw [h.manifests], ?_, ?_, by rw [h.bodies]⟩
  · rw [h.records]
    apply Table.share_foldl _ hstored
    intro u r hr
    cases restart with
    | true => exact Table.share_upsert hr
    | false => exact Table.share_insertAbsent hr
  · rw [h.ciphertext]
    exact Table.share_foldl (fun _ _ hr => Table.share_upsert hr) hsealed

theorem share_upsertSessionManifest {sessionId irId : UUID} {name format : Text}
    {metadata : PlainTree} {records part : Int} {apiKeyId : Option UUID} {exclusive : Bool}
    (h : upsertSessionManifest sessionId name metadata irId format records apiKeyId exclusive s =
      .ok (part, s')) (hother : sessionId ≠ kept) : SameParts kept s s' := by
  rw [upsertSessionManifest, get_bind_ok, ensure_bind_ok, ensure_bind_ok, ensure_bind_ok] at h
  obtain ⟨_, _, _, hset⟩ := h
  cases hset
  refine ⟨?_, rfl, rfl, rfl⟩
  apply Table.share_upsert
  unfold manifestRow
  split
  · exact decide_eq_false hother
  · exact decide_eq_false hother

theorem share_offloadBatch {shards shard batch n : Nat} {locked : RecordKey → Bool}
    (h : offloadBatch codec shardOf shards shard batch locked s = .ok (n, s'))
    (hpicks : ∀ r ∈ offloadPicks shardOf shards shard batch locked s.records, r.sessionId ≠ kept) :
    SameParts kept s s' := by
  rw [offloadBatch, ensure_bind_ok, get_bind_ok] at h
  obtain ⟨_, hset⟩ := h
  cases hset
  refine ⟨rfl, ?_, rfl, ?_⟩
  · refine @Table.share_update _ _ _ s.records (ofSession kept) _ (headPicked_key _) ?_
    intro r _ hr
    unfold headPicked
    rw [if_neg]
    intro hmem
    obtain ⟨pick, hpick, hkey⟩ := List.mem_map.mp hmem
    have hsession := congrArg RecordKey.sessionId hkey
    exact hpicks pick hpick (hsession.trans (of_decide_eq_true hr))
  · apply Table.share_foldl (fun _ _ hr => Table.share_upsert hr)
    intro b hb
    obtain ⟨pick, hpick, rfl⟩ := List.mem_map.mp hb
    exact decide_eq_false (hpicks pick hpick)

theorem CopiedInto.sameParts {source target : UUID} {prefixes : List PartPrefix}
    {apiKeyId : Option UUID} (h : CopiedInto source target prefixes apiKeyId s s')
    (hother : target ≠ kept) : SameParts kept s s' := by
  refine ⟨Table.share_append h.manifests ?_, Table.share_append h.records ?_,
    Table.share_append h.ciphertext ?_, Table.share_append h.bodies ?_⟩
  · intro m hm
    obtain ⟨_, _, _, _, _, rfl⟩ := mem_copiedManifests.mp hm
    exact decide_eq_false hother
  · intro r hr
    exact decide_eq_false (copied_sessionId (fun _ _ => rfl) hr ▸ hother)
  · intro c hc
    exact decide_eq_false (copied_sessionId (fun _ _ => rfl) hc ▸ hother)
  · intro b hb
    exact decide_eq_false (copied_sessionId (fun _ _ => rfl) hb ▸ hother)

/-- One transaction that spares a session leaves its rows. -/
theorem PartWrite.sameParts {w : PartWrite} (h : w.Spares shardOf kept s) :
    SameParts kept s (settle (w.run codec shardOf) s) := by
  cases w with
  | write op =>
      rw [PartWrite.run]
      cases op with
      | append sessionId rows restart =>
          rw [SessionOp.run, settle_discard]
          rcases settle_cases (appendSessionRecords sessionId rows restart) s with hs | ⟨n, hs⟩
          · rw [hs]
            exact .refl kept s
          · rcases appendSessionRecords_ok hs with ⟨_, heq⟩ | happended
            · rw [heq]
              exact .refl kept s
            · exact share_append_rows happended h
      | upsertManifest sessionId name metadata irId format records apiKeyId exclusive =>
          rw [SessionOp.run, settle_discard]
          rcases settle_cases (upsertSessionManifest sessionId name metadata irId format records
            apiKeyId exclusive) s with hs | ⟨part, hs⟩
          · rw [hs]
            exact .refl kept s
          · exact share_upsertSessionManifest hs h
      | offload shards shard batch locked =>
          rw [SessionOp.run, settle_discard]
          rcases settle_cases (offloadBatch codec shardOf shards shard batch locked) s with
            hs | ⟨n, hs⟩
          · rw [hs]
            exact .refl kept s
          · exact share_offloadBatch hs h
      | endSession sessionId ended => exact ⟨rfl, rfl, rfl, rfl⟩
  | copy source target prefixes apiKeyId =>
      rw [PartWrite.run]
      rcases settle_cases (copySessionParts source target prefixes apiKeyId) s with hs | ⟨_, hs⟩
      · rw [hs]
        exact .refl kept s
      · exact (copySessionParts_spec hs).sameParts h

/-- A run of transactions that write to other sessions than the kept one. -/
inductive Elsewhere (codec : BodyCodec β) (shardOf : UUID → Nat) (kept : UUID)
    (s : SessionStore β) : SessionStore β → Prop where
  | start : Elsewhere codec shardOf kept s s
  | step {t : SessionStore β} (w : PartWrite) : Elsewhere codec shardOf kept s t →
      w.Spares shardOf kept t → Elsewhere codec shardOf kept s (settle (w.run codec shardOf) t)

theorem Elsewhere.sameParts (h : Elsewhere codec shardOf kept s t) : SameParts kept s t := by
  induction h with
  | start => exact .refl kept s
  | step w _ hspares ih => exact ih.trans (w.sameParts hspares)

end Isolation

section Fork

variable {β : Type} (codec : BodyCodec β) (jsonLoads : Text → Except StoreError PlainTree)
  (shardOf : UUID → Nat)

/-- A fork's copy reads as the first records of its parts, holds nothing else, and leaves every
other session's reading; and no later write to one session changes what another reads as. -/
theorem copySessionParts_reads {s : SessionStore β} {source target : UUID}
    {prefixes : List PartPrefix} (apiKeyId : Option UUID) (hs : Constrained s)
    (hfree : PartFree s target) (hprefixes : Prefixes s source prefixes) :
    ∃ s', copySessionParts source target prefixes apiKeyId s = .ok ((), s') ∧
      (∀ (i : Nat) p m, prefixes[i]? = some p → s.manifests.find? ⟨source, p.part⟩ = some m →
        s'.manifests.find? ⟨target, i⟩ = some (copiedManifest target i p apiKeyId m) ∧
          ∀ afterIdx limit plaintextOnly,
            readSessionRecords codec jsonLoads s' target i afterIdx limit plaintextOnly =
              (readSessionRecords codec jsonLoads s source p.part afterIdx
                (min limit (prefixCount s source p afterIdx)) plaintextOnly).map
                  (List.map (atPart target i))) ∧
      (∀ part : Int, (∀ i < prefixes.length, part ≠ i) → ∀ afterIdx limit plaintextOnly,
        readSessionRecords codec jsonLoads s' target part afterIdx limit plaintextOnly = .ok []) ∧
      (∀ other, other ≠ target → ∀ part afterIdx limit plaintextOnly,
        readSessionRecords codec jsonLoads s' other part afterIdx limit plaintextOnly =
          readSessionRecords codec jsonLoads s other part afterIdx limit plaintextOnly) ∧
      ∀ kept t, Elsewhere codec shardOf kept s' t → ∀ part afterIdx limit plaintextOnly,
        readSessionRecords codec jsonLoads t kept part afterIdx limit plaintextOnly =
          readSessionRecords codec jsonLoads s' kept part afterIdx limit plaintextOnly := by
  obtain ⟨s', hrun⟩ :=
    @copySessionParts_ok β source target prefixes apiKeyId s hs hfree hprefixes.distinct
  have hcopied := copySessionParts_spec hrun
  refine ⟨s', hrun, ?_, ?_, ?_, ?_⟩
  · intro i p m hp hm
    obtain ⟨m', hm', hwithin⟩ := hprefixes.within p (List.mem_of_getElem? hp)
    obtain rfl := Option.some.inj (hm.symm.trans hm')
    refine ⟨hcopied.manifest hp hm, ?_⟩
    intro afterIdx limit plaintextOnly
    exact hcopied.read hs hfree hp hm hwithin afterIdx limit plaintextOnly
  · intro part hpart afterIdx limit plaintextOnly
    exact hcopied.read_rest hfree hpart afterIdx limit plaintextOnly
  · intro other hother part afterIdx limit plaintextOnly
    exact (hcopied.sameParts (Ne.symm hother)).read part afterIdx limit plaintextOnly
  · intro kept t helsewhere part afterIdx limit plaintextOnly
    exact helsewhere.sameParts.read part afterIdx limit plaintextOnly

end Fork

theorem one_ne_two_ids : ([⟨1, .agentSession, none⟩, ⟨2, .agentSession, none⟩].map
    Session.id).Nodup := by
  decide

/-- A session whose one part shrank to two records, the first of them offloaded and the second
with ciphertext, and a session without parts. -/
def shrunkSession : SessionStore Text where
  sessions := ⟨[{ id := 1, kind := .agentSession }, { id := 2, kind := .agentSession }],
    one_ne_two_ids⟩
  manifests := ⟨[{ sessionId := 1, part := 3, name := ['f'], metadata := dumps (.dict []), irId := 9,
                   format := ['c'], records := 2 }], by decide⟩
  records :=
    ⟨[{ sessionId := 1, part := 3, idx := 0, kind := "BashResult".toList, contextId := none,
        timestamp := none, model := none, payload := stubPayload, text := ['h'] },
      { sessionId := 1, part := 3, idx := 1, kind := "Thinking".toList, contextId := none,
        timestamp := none, model := none, payload := dumps (.dict []), text := [] },
      { sessionId := 1, part := 3, idx := 2, kind := "UserMessage".toList, contextId := none,
        timestamp := none, model := none, payload := dumps (.dict []), text := ['s'] }], by decide⟩
  ciphertext := ⟨[{ sessionId := 1, part := 3, idx := 1, bytes := ['x'] }], by decide⟩
  bodies := ⟨[{ sessionId := 1, part := 3, idx := 0, payloadZst := dumps (.dict [])
                textZst := ['h', 'i'] }], by decide⟩

theorem copySessionParts_reads_shrunk :
    ∃ s', copySessionParts 1 2 [⟨3, 2⟩] none shrunkSession = .ok ((), s') ∧
      readSessionRecords storedAsIs loadsEmptyObject s' 2 0 (-1) 500 false =
        (readSessionRecords storedAsIs loadsEmptyObject shrunkSession 1 3 (-1)
          (min 500 (prefixCount shrunkSession 1 ⟨3, 2⟩ (-1))) false).map (List.map (atPart 2 0)) := by
  have hs : Constrained shrunkSession := ⟨by decide, by decide, by decide⟩
  have hfree : PartFree shrunkSession 2 :=
    ⟨by decide, by decide, by decide, by decide, by decide⟩
  have hprefixes : Prefixes shrunkSession 1 [⟨3, 2⟩] := by
    refine ⟨by decide, ?_⟩
    intro p hp
    obtain rfl := List.mem_singleton.mp hp
    exact ⟨_, rfl, by decide⟩
  obtain ⟨s', hrun, hparts, _⟩ := copySessionParts_reads storedAsIs loadsEmptyObject (fun _ => 0)
    none hs hfree hprefixes
  exact ⟨s', hrun, (hparts 0 ⟨3, 2⟩ _ rfl rfl).2 (-1) 500 false⟩

end Trackinizer.Forks
