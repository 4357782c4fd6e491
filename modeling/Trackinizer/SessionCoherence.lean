import Trackinizer.SessionIR

namespace Trackinizer

open Keyed Transact

/-- What a session's records are for: one row a key. -/
abbrev SessionLog := Table CapturedRow.key

/-- A restart's rows replace what was there; an append's are kept where nothing was. -/
def remember (restart : Bool) (rows : List CapturedRow) (latest : SessionLog) : SessionLog :=
  rows.foldl (if restart then Table.upsert else Table.insertAbsent) latest

section Coherence

variable {β : Type} {codec : BodyCodec β}

/-- What the tables hold under one key. -/
structure Slots (β : Type) where
  record : Option StoredRecord
  body : Option (StoredBody β)
  sealed : Option Text

def SessionStore.slots (s : SessionStore β) (k : RecordKey) : Slots β :=
  { record := s.records.find? k
    body := s.bodies.find? k
    sealed := (s.ciphertext.find? k).map fun c => c.bytes }

/-- The tables under a key show one captured row: hot, or offloaded with its body beside it. -/
structure Shows (codec : BodyCodec β) (slots : Slots β) (w : CapturedRow) (r : StoredRecord) :
    Prop where
  record : slots.record = some r
  key : r.toRecordKey = w.key
  kind : r.kind = nulFree w.kind
  contextId : r.contextId = w.contextId
  timestamp : r.timestamp = w.timestamp
  model : r.model = w.model.map nulFree
  payload : (r.payload = encodedPayload (.dict w.payload) ∧ r.payload ≠ stubPayload ∧
      r.text = nulFree w.text) ∨
    (r.payload = stubPayload ∧ ∃ body, slots.body = some body ∧
      codec.decode body.payloadZst = .ok (encodedPayload (.dict w.payload)))
  text : splicedText codec r.text (slots.body.map fun b => b.textZst) = .ok (nulFree w.text)
  sealed : slots.sealed = w.ciphertext

/-- Under a key without a record there is nothing at all. -/
def CoherentAt (codec : BodyCodec β) (slots : Slots β) : Option CapturedRow → Prop
  | none => slots = ⟨none, none, none⟩
  | some w => ∃ r, Shows codec slots w r

/-- The four tables are in step. -/
structure Coherent (codec : BodyCodec β) (s : SessionStore β) (latest : SessionLog) : Prop where
  slots : ∀ k, CoherentAt codec (s.slots k) (latest.find? k)
  idx_nonneg : ∀ k w, latest.find? k = some w → 0 ≤ k.idx

theorem lookup_stored (rows : List CapturedRow) (k : RecordKey) :
    Table.lookup StoredRecord.toRecordKey (rows.map CapturedRow.stored) k =
      (Table.lookup CapturedRow.key rows k).map CapturedRow.stored := by
  unfold Table.lookup
  rw [List.find?_map]
  rfl

theorem stored_keys (rows : List CapturedRow) :
    (rows.map CapturedRow.stored).map StoredRecord.toRecordKey = rows.map CapturedRow.key := by
  rw [List.map_map]
  rfl

theorem lookup_encrypted_some {rows : List CapturedRow} {k : RecordKey} {c : StoredCiphertext}
    (h : Table.lookup StoredCiphertext.toRecordKey (encrypted rows) k = some c) :
    ∃ row ∈ rows, row.key = k ∧ row.ciphertext = some c.bytes := by
  obtain ⟨hmem, hkey⟩ := Table.lookup_eq_some h
  obtain ⟨row, hrow, hmap⟩ := List.mem_filterMap.mp hmem
  obtain ⟨bytes, hbytes, rfl⟩ := Option.map_eq_some_iff.mp hmap
  exact ⟨row, hrow, hkey, hbytes⟩

theorem lookup_encrypted_of_mem {rows : List CapturedRow} {row : CapturedRow} {bytes : Text}
    (hnodup : ((encrypted rows).map StoredCiphertext.toRecordKey).Nodup) (hrow : row ∈ rows)
    (hbytes : row.ciphertext = some bytes) :
    Table.lookup StoredCiphertext.toRecordKey (encrypted rows) row.key =
      some ⟨row.key, bytes⟩ := by
  have hmem : (⟨row.key, bytes⟩ : StoredCiphertext) ∈ encrypted rows :=
    List.mem_filterMap.mpr ⟨row, hrow, by rw [hbytes, Option.map_some]⟩
  exact Table.lookup_of_mem hnodup hmem

/-- What a committed append did to the tables. -/
structure Appended (rows : List CapturedRow) (restart : Bool) (s s' : SessionStore β) : Prop where
  checks : ∀ row ∈ rows, 0 ≤ row.key.idx
  distinct : restart = true → (rows.map CapturedRow.key).Nodup
  sealed_distinct : ((encrypted rows).map StoredCiphertext.toRecordKey).Nodup
  records : s'.records = (rows.map CapturedRow.stored).foldl
    (if restart then Table.upsert else Table.insertAbsent) s.records
  ciphertext : s'.ciphertext = (encrypted rows).foldl Table.upsert s.ciphertext
  bodies : s'.bodies = s.bodies
  manifests : s'.manifests = s.manifests

theorem appendLive_ok {rows : List CapturedRow} {restart : Bool} {s s' : SessionStore β}
    {n : Nat × Nat} (h : appendLive rows restart s = .ok (n, s')) : Appended rows restart s s' := by
  rw [appendLive, get_bind_ok] at h
  obtain ⟨_, t, hinsert, hrest⟩ := bind_ok.mp h
  obtain ⟨_, t', hcipher, hret⟩ := bind_ok.mp hrest
  cases hret
  rw [insertRecords, ensure_bind_ok, get_bind_ok, ensure_bind_ok, ensure_bind_ok] at hinsert
  obtain ⟨hchecks, _, hdistinct, hset⟩ := hinsert
  cases hset
  obtain ⟨hsealed, hmodify⟩ := ensure_bind_ok.mp hcipher
  cases hmodify
  refine ⟨?_, hdistinct, hsealed, rfl, rfl, rfl, rfl⟩
  intro row hrow
  have hcheck := List.all_eq_true.mp hchecks row hrow
  simp only [CapturedRow.checks, Bool.and_eq_true, decide_eq_true_eq] at hcheck
  exact hcheck.1

theorem appendSessionRecords_ok {sessionId : UUID} {rows : List CapturedRow} {restart : Bool}
    {s s' : SessionStore β} {n : Nat × Nat}
    (h : appendSessionRecords sessionId rows restart s = .ok (n, s')) :
    (rows = [] ∧ s' = s) ∨ Appended rows restart s s' := by
  rw [appendSessionRecords, ite_run] at h
  split at h
  next hempty =>
    cases h
    exact Or.inl ⟨by simpa using hempty, rfl⟩
  next =>
    rw [get_bind_ok, orThrow_bind_ok] at h
    obtain ⟨session, _, hkind⟩ := h
    obtain ⟨_, hended⟩ := ensure_bind_ok.mp hkind
    obtain ⟨_, hlive⟩ := ensure_bind_ok.mp hended
    exact Or.inr (appendLive_ok hlive)

/-- An append leaves the keys it does not name. -/
theorem Appended.find?_of_not_mem {rows : List CapturedRow} {restart : Bool}
    {s s' : SessionStore β} (h : Appended rows restart s s') {k : RecordKey}
    (hk : ∀ row ∈ rows, row.key ≠ k) : s'.records.find? k = s.records.find? k := by
  have hnone : Table.lookup StoredRecord.toRecordKey (rows.map CapturedRow.stored) k = none := by
    rw [lookup_stored, Table.lookup_eq_none.mpr hk]
    rfl
  rw [h.records]
  cases restart with
  | true =>
      have hnodup : ((rows.map CapturedRow.stored).map StoredRecord.toRecordKey).Nodup := by
        rw [stored_keys]
        exact h.distinct rfl
      rw [if_pos rfl, Table.find?_foldl_upsert _ hnodup, hnone, Option.none_or]
  | false => rw [if_neg Bool.false_ne_true, Table.find?_foldl_insertAbsent, hnone, Option.or_none]

/-- An append fills a free key with the row that names it. -/
theorem Appended.find?_of_mem {rows : List CapturedRow} {s s' : SessionStore β}
    (h : Appended rows false s s') {row : CapturedRow}
    (hnodup : (rows.map CapturedRow.key).Nodup) (hrow : row ∈ rows)
    (hfree : s.records.find? row.key = none) : s'.records.find? row.key = some row.stored := by
  rw [h.records, if_neg Bool.false_ne_true, Table.find?_foldl_insertAbsent, hfree, Option.none_or,
    lookup_stored, Table.lookup_of_mem hnodup hrow]
  rfl

/-- An append that is no restart keeps every row. -/
theorem Appended.find?_kept {rows : List CapturedRow} {s s' : SessionStore β}
    (h : Appended rows false s s') {k : RecordKey} {r : StoredRecord}
    (hr : s.records.find? k = some r) : s'.records.find? k = some r := by
  rw [h.records, if_neg Bool.false_ne_true, Table.find?_foldl_insertAbsent, hr, Option.some_or]

/-- When an append keeps the tables in step: no payload is spelled like the stub; a restart
keeps the text of a record whose body is offloaded, and reseals one that was sealed; an
append seals only the row that stands at its key. -/
structure AppendMeets (codec : BodyCodec β) (rows : List CapturedRow) (restart : Bool)
    (s : SessionStore β) (latest : SessionLog) : Prop where
  not_stub : ∀ row ∈ rows, restart = true ∨ latest.find? row.key = none →
    encodedPayload (.dict row.payload) ≠ stubPayload
  same_text : restart = true → ∀ row ∈ rows, ∀ body, s.bodies.find? row.key = some body →
    codec.decode body.textZst = .ok (nulFree row.text)
  resealed : restart = true → ∀ row ∈ rows, row.ciphertext = none →
    s.ciphertext.find? row.key = none
  standing : restart = false → ∀ row ∈ rows, ∀ bytes, row.ciphertext = some bytes →
    ∃ w, (remember false rows latest).find? row.key = some w ∧ w.ciphertext = some bytes

theorem Appended.sealed_at {rows : List CapturedRow} {restart : Bool} {s s' : SessionStore β}
    (h : Appended rows restart s s') (k : RecordKey) :
    (s'.ciphertext.find? k).map (fun c => c.bytes) =
      ((Table.lookup StoredCiphertext.toRecordKey (encrypted rows) k).map
        fun c => c.bytes).or ((s.ciphertext.find? k).map fun c => c.bytes) := by
  rw [h.ciphertext, Table.find?_foldl_upsert _ h.sealed_distinct, Option.map_or]

/-- A row that is not offloaded shows what was stored. -/
theorem shows_stored {slots : Slots β} {w : CapturedRow}
    (hrecord : slots.record = some w.stored)
    (hstub : encodedPayload (.dict w.payload) ≠ stubPayload)
    (hbody : ∀ body, slots.body = some body → codec.decode body.textZst = .ok (nulFree w.text))
    (hsealed : slots.sealed = w.ciphertext) : Shows codec slots w w.stored := by
  refine ⟨hrecord, rfl, rfl, rfl, rfl, rfl, Or.inl ⟨rfl, hstub, rfl⟩, ?_, hsealed⟩
  cases hslot : slots.body with
  | none => rfl
  | some body => exact hbody body hslot

/-- Only the record's ciphertext is compared: the rest of the slots may stay. -/
theorem Shows.congr {slots slots' : Slots β} {w : CapturedRow} {r : StoredRecord}
    (h : Shows codec slots w r) (hrecord : slots'.record = slots.record)
    (hbody : slots'.body = slots.body) (hsealed : slots'.sealed = w.ciphertext) :
    Shows codec slots' w r := by
  have hpayload := h.payload
  have htext := h.text
  rw [← hbody] at hpayload htext
  exact ⟨hrecord.trans h.record, h.key, h.kind, h.contextId, h.timestamp, h.model, hpayload,
    htext, hsealed⟩

/-- A restart shows its rows in place of what was there. -/
theorem coherentAt_restart {rows : List CapturedRow} {s s' : SessionStore β}
    {latest : SessionLog} (h : Appended rows true s s') (hmeets : AppendMeets codec rows true s latest)
    {k : RecordKey} (hold : CoherentAt codec (s.slots k) (latest.find? k)) :
    CoherentAt codec (s'.slots k) ((remember true rows latest).find? k) := by
  have hdistinct := h.distinct rfl
  have hlatest : (remember true rows latest).find? k =
      (Table.lookup CapturedRow.key rows k).or (latest.find? k) :=
    Table.find?_foldl_upsert latest hdistinct k
  have hrecords : s'.records.find? k =
      ((Table.lookup CapturedRow.key rows k).map CapturedRow.stored).or (s.records.find? k) := by
    rw [h.records, if_pos rfl, Table.find?_foldl_upsert, lookup_stored]
    rw [stored_keys]
    exact hdistinct
  rw [hlatest]
  cases hrow : Table.lookup CapturedRow.key rows k with
  | none =>
      have hunsealed : Table.lookup StoredCiphertext.toRecordKey (encrypted rows) k = none := by
        cases hc : Table.lookup StoredCiphertext.toRecordKey (encrypted rows) k with
        | none => rfl
        | some c =>
            obtain ⟨row, hmem, hkey, _⟩ := lookup_encrypted_some hc
            exact absurd hkey (Table.lookup_eq_none.mp hrow row hmem)
      have hsame : s'.slots k = s.slots k := by
        unfold SessionStore.slots
        rw [h.sealed_at, hrecords, h.bodies, hrow, hunsealed]
        simp
      rw [hsame, Option.none_or]
      exact hold
  | some row =>
      obtain ⟨hmem, rfl⟩ := Table.lookup_eq_some hrow
      rw [Option.some_or]
      refine ⟨row.stored, shows_stored ?_ (hmeets.not_stub row hmem (Or.inl rfl)) ?_ ?_⟩
      · show s'.records.find? row.key = _
        rw [hrecords, hrow]
        rfl
      · intro body hbody
        apply hmeets.same_text rfl row hmem body
        rw [← h.bodies]
        exact hbody
      · show (s'.ciphertext.find? row.key).map _ = _
        rw [h.sealed_at]
        cases hbytes : row.ciphertext with
        | some bytes =>
            rw [lookup_encrypted_of_mem h.sealed_distinct hmem hbytes]
            rfl
        | none =>
            have hunsealed :
                Table.lookup StoredCiphertext.toRecordKey (encrypted rows) row.key = none := by
              cases hc : Table.lookup StoredCiphertext.toRecordKey (encrypted rows) row.key with
              | none => rfl
              | some c =>
                  obtain ⟨other, hother, hkey, hbytes'⟩ := lookup_encrypted_some hc
                  have hsame : other = row := List.inj_on_of_nodup_map hdistinct hother hmem hkey
                  rw [hsame, hbytes] at hbytes'
                  cases hbytes'
            rw [hunsealed, hmeets.resealed rfl row hmem hbytes]
            rfl

/-- An append shows its rows where nothing was. -/
theorem coherentAt_append {rows : List CapturedRow} {s s' : SessionStore β}
    {latest : SessionLog} (h : Appended rows false s s')
    (hmeets : AppendMeets codec rows false s latest) {k : RecordKey}
    (hold : CoherentAt codec (s.slots k) (latest.find? k)) :
    CoherentAt codec (s'.slots k) ((remember false rows latest).find? k) := by
  have hlatest : (remember false rows latest).find? k =
      (latest.find? k).or (Table.lookup CapturedRow.key rows k) :=
    Table.find?_foldl_insertAbsent latest rows k
  have hrecords : s'.records.find? k =
      (s.records.find? k).or ((Table.lookup CapturedRow.key rows k).map CapturedRow.stored) := by
    rw [h.records, if_neg Bool.false_ne_true, Table.find?_foldl_insertAbsent, lookup_stored]
  -- Whatever ciphertext the batch writes under the key is that of the row standing there.
  have hsealed : ∀ w, (remember false rows latest).find? k = some w →
      (∀ bytes, Table.lookup StoredCiphertext.toRecordKey (encrypted rows) k = some bytes →
        w.ciphertext = some bytes.bytes) := by
    intro w hw c hc
    obtain ⟨row, hmem, rfl, hbytes⟩ := lookup_encrypted_some hc
    obtain ⟨w', hw', hstands⟩ := hmeets.standing rfl row hmem c.bytes hbytes
    rw [hw] at hw'
    cases hw'
    exact hstands
  cases hfind : latest.find? k with
  | some w =>
      rw [hfind] at hold
      obtain ⟨r, hshows⟩ := hold
      have hstands : (remember false rows latest).find? k = some w := by
        rw [hlatest, hfind, Option.some_or]
      rw [hstands]
      refine ⟨r, hshows.congr ?_ ?_ ?_⟩
      · have hrecord : s.records.find? k = some r := hshows.record
        show s'.records.find? k = s.records.find? k
        rw [hrecords, hrecord, Option.some_or]
      · show s'.bodies.find? k = s.bodies.find? k
        rw [h.bodies]
      · show (s'.ciphertext.find? k).map _ = _
        rw [h.sealed_at]
        cases hc : Table.lookup StoredCiphertext.toRecordKey (encrypted rows) k with
        | none =>
            have hkept : (s.ciphertext.find? k).map (fun c => c.bytes) = w.ciphertext :=
              hshows.sealed
            rw [Option.map_none, Option.none_or]
            exact hkept
        | some c => exact (hsealed w hstands c hc).symm
  | none =>
      rw [hfind] at hold
      have hempty : s.slots k = ⟨none, none, none⟩ := hold
      have hnorecord : s.records.find? k = none := congrArg Slots.record hempty
      have hnobody : s.bodies.find? k = none := congrArg Slots.body hempty
      have hnosealed : (s.ciphertext.find? k).map (fun c => c.bytes) = none :=
        congrArg Slots.sealed hempty
      rw [hlatest, hfind, Option.none_or]
      cases hrow : Table.lookup CapturedRow.key rows k with
      | none =>
          show s'.slots k = _
          have hunsealed : Table.lookup StoredCiphertext.toRecordKey (encrypted rows) k = none := by
            cases hc : Table.lookup StoredCiphertext.toRecordKey (encrypted rows) k with
            | none => rfl
            | some c =>
                obtain ⟨row, hmem, hkey, _⟩ := lookup_encrypted_some hc
                exact absurd hkey (Table.lookup_eq_none.mp hrow row hmem)
          unfold SessionStore.slots
          rw [h.sealed_at, hrecords, h.bodies, hrow, hunsealed, hnorecord, hnobody, hnosealed]
          rfl
      | some row =>
          have hstands : (remember false rows latest).find? k = some row := by
            rw [hlatest, hfind, Option.none_or, hrow]
          obtain ⟨hmem, rfl⟩ := Table.lookup_eq_some hrow
          refine ⟨row.stored, shows_stored ?_ (hmeets.not_stub row hmem (Or.inr hfind)) ?_ ?_⟩
          · show s'.records.find? row.key = _
            rw [hrecords, hnorecord, hrow]
            rfl
          · intro body hbody
            have hsame : s'.bodies.find? row.key = some body := hbody
            rw [h.bodies, hnobody] at hsame
            cases hsame
          · show (s'.ciphertext.find? row.key).map _ = _
            rw [h.sealed_at, hnosealed, Option.or_none]
            cases hbytes : row.ciphertext with
            | some bytes =>
                rw [lookup_encrypted_of_mem h.sealed_distinct hmem hbytes]
                rfl
            | none =>
                cases hc : Table.lookup StoredCiphertext.toRecordKey (encrypted rows) row.key with
                | none => rfl
                | some c =>
                    have hbad := hsealed row hstands c hc
                    rw [hbytes] at hbad
                    cases hbad

/-- The rows a batch claims are distinct rows of the table that are not offloaded. -/
theorem mem_offloadPicks {shardOf : UUID → Nat} {shards shard batch : Nat}
    {locked : RecordKey → Bool} {records : Table StoredRecord.toRecordKey} {r : StoredRecord}
    (h : r ∈ offloadPicks shardOf shards shard batch locked records) :
    r ∈ records.rows ∧ r.payload ≠ stubPayload := by
  have hsorted := List.mem_of_mem_take h
  rw [List.mem_mergeSort, List.mem_filter, Bool.and_eq_true, decide_eq_true_eq] at hsorted
  exact ⟨hsorted.1, hsorted.2.1.2.1⟩

theorem offloadPicks_nodup (shardOf : UUID → Nat) (shards shard batch : Nat)
    (locked : RecordKey → Bool) (records : Table StoredRecord.toRecordKey) :
    ((offloadPicks shardOf shards shard batch locked records).map
      StoredRecord.toRecordKey).Nodup := by
  have hsorted : ∀ {xs : List StoredRecord} {le : StoredRecord → StoredRecord → Bool},
      (xs.map StoredRecord.toRecordKey).Nodup →
        ((xs.mergeSort le).map StoredRecord.toRecordKey).Nodup := by
    intro xs le hxs
    exact ((List.mergeSort_perm xs le).map _).nodup_iff.mpr hxs
  have hfiltered := records.keys_nodup.sublist
    ((List.filter_sublist (l := records.rows)
      (p := fun r => decide (r.kind ∈ heavyKinds ∧ r.payload ≠ stubPayload ∧
        shardOf r.sessionId % shards = shard) && !locked r.toRecordKey)).map
      StoredRecord.toRecordKey)
  exact (hsorted hfiltered).sublist ((List.take_sublist _ _).map _)

/-- An offloaded row shows what the hot row did. -/
theorem shows_head {slots slots' : Slots β} {w : CapturedRow} {r : StoredRecord}
    (h : Shows codec slots w r) (hhot : r.payload ≠ stubPayload)
    (hrecord : slots'.record = some r.head) (hbody : slots'.body = some (r.body codec))
    (hsealed : slots'.sealed = slots.sealed) : Shows codec slots' w r.head := by
  rcases h.payload with ⟨hpayload, _, htext⟩ | ⟨hstub, _⟩
  · refine ⟨hrecord, h.key, h.kind, h.contextId, h.timestamp, h.model, Or.inr ⟨rfl, ?_⟩, ?_,
      hsealed.trans h.sealed⟩
    · refine ⟨_, hbody, ?_⟩
      rw [← hpayload]
      exact codec.decode_encode _
    · rw [hbody, ← htext]
      exact codec.decode_encode _
  · exact absurd hstub hhot

/-- An offload moves bodies and shows the same rows. -/
theorem coherentAt_offload {picks : List StoredRecord} {s s' : SessionStore β}
    {latest : SessionLog}
    (hpicks : ∀ r ∈ picks, r ∈ s.records.rows ∧ r.payload ≠ stubPayload)
    (hnodup : (picks.map StoredRecord.toRecordKey).Nodup)
    (hrecords : s'.records = s.records.update (headPicked picks) (headPicked_key picks))
    (hbodies : s'.bodies = (picks.map (StoredRecord.body codec)).foldl Table.upsert s.bodies)
    (hcipher : s'.ciphertext = s.ciphertext) {k : RecordKey}
    (hold : CoherentAt codec (s.slots k) (latest.find? k)) :
    CoherentAt codec (s'.slots k) (latest.find? k) := by
  have hbodykeys : (picks.map (StoredRecord.body codec)).map StoredBody.toRecordKey =
      picks.map StoredRecord.toRecordKey := by
    rw [List.map_map]
    rfl
  have hbody : s'.bodies.find? k =
      ((Table.lookup StoredRecord.toRecordKey picks k).map (StoredRecord.body codec)).or
        (s.bodies.find? k) := by
    rw [hbodies, Table.find?_foldl_upsert]
    · unfold Table.lookup
      rw [List.find?_map]
      rfl
    · rw [hbodykeys]
      exact hnodup
  have hrecord : s'.records.find? k = (s.records.find? k).map (headPicked picks) := by
    rw [hrecords, Table.find?_update]
  have hsealed : (s'.slots k).sealed = (s.slots k).sealed := by
    unfold SessionStore.slots
    rw [hcipher]
  cases hpick : Table.lookup StoredRecord.toRecordKey picks k with
  | some r =>
      obtain ⟨hmem, rfl⟩ := Table.lookup_eq_some hpick
      obtain ⟨hrow, hhot⟩ := hpicks r hmem
      have hfind : s.records.find? r.toRecordKey = some r := Table.find?_eq_some.mpr ⟨hrow, rfl⟩
      have hpicked : headPicked picks r = r.head := by
        rw [headPicked, if_pos (List.mem_map.mpr ⟨r, hmem, rfl⟩)]
      cases hlatest : latest.find? r.toRecordKey with
      | none =>
          rw [hlatest] at hold
          have hnone : s.records.find? r.toRecordKey = none := congrArg Slots.record hold
          rw [hfind] at hnone
          cases hnone
      | some w =>
          rw [hlatest] at hold
          obtain ⟨r', hshows⟩ := hold
          have hsame : r' = r := by
            have hrec : s.records.find? r.toRecordKey = some r' := hshows.record
            rw [hfind] at hrec
            exact (Option.some.inj hrec).symm
          subst hsame
          refine ⟨r'.head, shows_head hshows hhot ?_ ?_ hsealed⟩
          · show s'.records.find? r'.toRecordKey = _
            rw [hrecord, hfind, Option.map_some, hpicked]
          · show s'.bodies.find? r'.toRecordKey = _
            rw [hbody, hpick]
            rfl
  | none =>
      have hkept : s'.records.find? k = s.records.find? k := by
        rw [hrecord]
        cases hfind : s.records.find? k with
        | none => rfl
        | some r =>
            have hkey : r.toRecordKey = k := Table.find?_key hfind
            have hunpicked : r.toRecordKey ∉ picks.map StoredRecord.toRecordKey := by
              intro hmem
              obtain ⟨r', hr', hkey'⟩ := List.mem_map.mp hmem
              exact Table.lookup_eq_none.mp hpick r' hr' (hkey'.trans hkey)
            rw [Option.map_some, headPicked, if_neg hunpicked]
      have hsame : s'.slots k = s.slots k := by
        unfold SessionStore.slots
        rw [hkept, hbody, hpick, hcipher]
        rfl
      rw [hsame]
      exact hold

theorem offloadBatch_coherent {shardOf : UUID → Nat} {shards shard batch : Nat}
    {locked : RecordKey → Bool} {s s' : SessionStore β} {n : Nat} {latest : SessionLog}
    (h : offloadBatch codec shardOf shards shard batch locked s = .ok (n, s'))
    (hold : Coherent codec s latest) : Coherent codec s' latest := by
  rw [offloadBatch, ensure_bind_ok, get_bind_ok] at h
  obtain ⟨_, hset⟩ := h
  cases hset
  refine ⟨?_, hold.idx_nonneg⟩
  intro k
  have hnodup := offloadPicks_nodup shardOf shards shard batch locked s.records
  apply coherentAt_offload (s := s) (fun r hr => mem_offloadPicks hr) hnodup
  · rfl
  · rfl
  · rfl
  · exact hold.slots k

theorem upsertSessionManifest_slots {sessionId irId : UUID} {name format : Text}
    {metadata : PlainTree} {records part : Int} {apiKeyId : Option UUID} {exclusive : Bool}
    {s s' : SessionStore β}
    (h : upsertSessionManifest sessionId name metadata irId format records apiKeyId exclusive s =
      .ok (part, s')) (k : RecordKey) : s'.slots k = s.slots k := by
  rw [upsertSessionManifest, get_bind_ok, ensure_bind_ok, ensure_bind_ok, ensure_bind_ok] at h
  obtain ⟨_, _, _, hset⟩ := h
  cases hset
  rfl

/-- The transactions that write a session's records. -/
inductive SessionOp where
  | append (sessionId : UUID) (rows : List CapturedRow) (restart : Bool)
  | upsertManifest (sessionId : UUID) (name : Text) (metadata : PlainTree) (irId : UUID)
      (format : Text) (records : Int) (apiKeyId : Option UUID) (exclusive : Bool)
  | offload (shards shard batch : Nat) (locked : RecordKey → Bool)
  | endSession (sessionId : UUID) (ended : Nat)

def SessionOp.run (codec : BodyCodec β) (shardOf : UUID → Nat) : SessionOp → SessionM β Unit
  | .append sessionId rows restart => do
      let _ ← appendSessionRecords sessionId rows restart
      return ()
  | .upsertManifest sessionId name metadata irId format records apiKeyId exclusive => do
      let _ ← upsertSessionManifest sessionId name metadata irId format records apiKeyId exclusive
      return ()
  | .offload shards shard batch locked => do
      let _ ← offloadBatch codec shardOf shards shard batch locked
      return ()
  | .endSession sessionId ended => Trackinizer.endSession sessionId ended

/-- What the session's records should be after an operation: a committed append's rows are
remembered. -/
def SessionOp.remember (s : SessionStore β) (latest : SessionLog) : SessionOp → SessionLog
  | .append sessionId rows restart =>
      match appendSessionRecords sessionId rows restart s with
      | .ok _ => Trackinizer.remember restart rows latest
      | .error _ => latest
  | .upsertManifest _ _ _ _ _ _ _ _ | .offload _ _ _ _ | .endSession _ _ => latest

/-- The condition is asked of the appends that commit. -/
def SessionOp.Meets (codec : BodyCodec β) (s : SessionStore β) (latest : SessionLog) :
    SessionOp → Prop
  | .append sessionId rows restart =>
      ∀ result, appendSessionRecords sessionId rows restart s = .ok result →
        AppendMeets codec rows restart s latest
  | .upsertManifest _ _ _ _ _ _ _ _ | .offload _ _ _ _ | .endSession _ _ => True

/-- A run of session transactions in any order, each in the condition it is correct in, with
what its records should be. -/
inductive SessionRun (codec : BodyCodec β) (shardOf : UUID → Nat) :
    SessionStore β → SessionLog → Prop where
  | start (sessions : Table Session.id) : SessionRun codec shardOf { sessions := sessions } ∅
  | step {s : SessionStore β} {latest : SessionLog} (op : SessionOp) :
      SessionRun codec shardOf s latest → op.Meets codec s latest →
      SessionRun codec shardOf (settle (op.run codec shardOf) s) (op.remember s latest)

theorem coherent_start (sessions : Table Session.id) :
    Coherent codec { sessions := sessions } ∅ :=
  ⟨fun _ => rfl, fun _ _ h => by cases h⟩

theorem Appended.coherent {rows : List CapturedRow} {restart : Bool} {s s' : SessionStore β}
    {latest : SessionLog} (h : Appended rows restart s s')
    (hmeets : AppendMeets codec rows restart s latest) (hold : Coherent codec s latest) :
    Coherent codec s' (remember restart rows latest) := by
  have hidx : ∀ {k : RecordKey} {w : CapturedRow},
      Table.lookup CapturedRow.key rows k = some w → 0 ≤ k.idx := by
    intro k w hlookup
    obtain ⟨hmem, rfl⟩ := Table.lookup_eq_some hlookup
    exact h.checks w hmem
  cases restart with
  | true =>
      refine ⟨fun k => coherentAt_restart h hmeets (hold.slots k), ?_⟩
      intro k w hw
      have hfind := Table.find?_foldl_upsert latest (h.distinct rfl) k
      rw [remember, if_pos rfl, hfind, Option.or_eq_some_iff] at hw
      rcases hw with hnew | ⟨_, hkept⟩
      · exact hidx hnew
      · exact hold.idx_nonneg k w hkept
  | false =>
      refine ⟨fun k => coherentAt_append h hmeets (hold.slots k), ?_⟩
      intro k w hw
      have hfind := Table.find?_foldl_insertAbsent latest rows k
      rw [remember, if_neg Bool.false_ne_true, hfind, Option.or_eq_some_iff] at hw
      rcases hw with hkept | ⟨_, hnew⟩
      · exact hold.idx_nonneg k w hkept
      · exact hidx hnew

/-- One transaction keeps the tables in step with what they should show. -/
theorem SessionOp.coherent {shardOf : UUID → Nat} {op : SessionOp} {s : SessionStore β}
    {latest : SessionLog} (hmeets : op.Meets codec s latest) (hold : Coherent codec s latest) :
    Coherent codec (settle (op.run codec shardOf) s) (op.remember s latest) := by
  cases op with
  | append sessionId rows restart =>
      rw [SessionOp.run, settle_discard, SessionOp.remember]
      cases hrun : appendSessionRecords sessionId rows restart s with
      | error e =>
          rw [settle, hrun]
          exact hold
      | ok result =>
          obtain ⟨n, s'⟩ := result
          rw [settle_ok hrun]
          rcases appendSessionRecords_ok hrun with ⟨rfl, rfl⟩ | happended
          · cases restart <;> exact hold
          · exact happended.coherent (hmeets _ hrun) hold
  | upsertManifest sessionId name metadata irId format records apiKeyId exclusive =>
      rw [SessionOp.run, settle_discard]
      rcases settle_cases (upsertSessionManifest sessionId name metadata irId format records
        apiKeyId exclusive) s with hs | ⟨part, hs⟩
      · rw [hs]
        exact hold
      · refine ⟨fun k => ?_, hold.idx_nonneg⟩
        rw [upsertSessionManifest_slots hs]
        exact hold.slots k
  | offload shards shard batch locked =>
      rw [SessionOp.run, settle_discard]
      rcases settle_cases (offloadBatch codec shardOf shards shard batch locked) s with
        hs | ⟨n, hs⟩
      · rw [hs]
        exact hold
      · exact offloadBatch_coherent hs hold
  | endSession sessionId ended => exact ⟨hold.slots, hold.idx_nonneg⟩

theorem SessionRun.coherent {shardOf : UUID → Nat} {s : SessionStore β} {latest : SessionLog}
    (h : SessionRun codec shardOf s latest) : Coherent codec s latest := by
  induction h with
  | start sessions => exact coherent_start sessions
  | step op _ hmeets ih => exact op.coherent hmeets ih

end Coherence

end Trackinizer
