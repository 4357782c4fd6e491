import Trackinizer.Lib.Trace
import Trackinizer.SessionFeed

namespace Trackinizer.Feeds

open Keyed Transact Paging

section Follow

variable {β : Type} {scope : FeedRecord → Bool} {f f' : Feed β}

def Feed.receivedKeys (f : Feed β) : List RecordKey :=
  f.received.map FeedRecord.toStoredRecord |>.map StoredRecord.toRecordKey

/-- Every record of the feed at or behind the cursor has been received. -/
def Feed.NothingLost (scope : FeedRecord → Bool) (f : Feed β) : Prop :=
  ∀ r ∈ f.rows scope, r.key ≤ f.cursor → r.toRecordKey ∈ f.receivedKeys

/-- What following the feed is for: nothing is behind the cursor that was not received, and a
reader that reads on has received every record of the feed once. -/
structure Feed.Follows (scope : FeedRecord → Bool) (f : Feed β) : Prop where
  nothing_lost : f.NothingLost scope
  once : ∀ limit reads, 0 < limit → (f.rows scope).length ≤ reads → ∀ r ∈ f.rows scope,
    ((Feed.read scope limit)^[reads] f).receivedKeys.count r.toRecordKey = 1

/-- The reader has passed a record that it was not given. -/
def Feed.Passed (f : Feed β) (r : FeedRecord) : Prop :=
  r.key ≤ f.cursor ∧ r.toRecordKey ∉ f.receivedKeys

/-- A row of an append as its commit leaves it. -/
def OpenAppend.written (a : OpenAppend) (f : Feed β) (row : CapturedRow) : FeedRecord :=
  { row.stored with created := a.created f row.key }

/-- A commit writes, and a manifest's upsert uncovers, no record the reader has passed. -/
def OnTime (scope : FeedRecord → Bool) (f : Feed β) : Act → Prop
  | .commit session => ∀ a, f.appends.find? session = some a →
      ∀ k row, Table.lookup CapturedRow.key a.captured k = some row →
        (a.restart = true ∨ f.store.records.find? k = none) → inFeed f.store k = true →
        scope (a.written f row) = true → ¬ f.Passed (a.written f row)
  | .upsert session name _ _ _ records _ _ => ∀ r ∈ f.store.records.rows,
      r.sessionId = session → r.part = resolvePart f.store session name → r.idx < records →
        isSession f.store session = true → scope (f.stamped r) = true →
        ¬ f.Passed (f.stamped r)
  | _ => True

structure Feed.Inv (f : Feed β) : Prop where
  stored : ∀ r ∈ f.received, f.store.records.find? r.toRecordKey ≠ none ∧
    f.created r.toRecordKey = r.created
  nodup : f.receivedKeys.Nodup
  behind : ∀ r ∈ f.received, r.key ≤ f.cursor

theorem feedKey_inj {created created' : Nat} {k k' : RecordKey}
    (h : feedKey created k = feedKey created' k') : created = created' ∧ k = k' := by
  have hlex := toLex_inj.mp h
  obtain ⟨hcreated, hrest⟩ := Prod.mk.inj hlex
  obtain ⟨hsession, hrest'⟩ := Prod.mk.inj (toLex_inj.mp hrest)
  obtain ⟨hpart, hidx⟩ := Prod.mk.inj (toLex_inj.mp hrest')
  obtain ⟨sessionId, part, idx⟩ := k
  obtain ⟨sessionId', part', idx'⟩ := k'
  subst hcreated hsession hpart hidx
  exact ⟨rfl, rfl⟩

theorem key_inj {r r' : FeedRecord} (h : r.key = r'.key) :
    r.created = r'.created ∧ r.toRecordKey = r'.toRecordKey :=
  feedKey_inj (WithBot.coe_inj.mp h)

theorem mem_rows {r : FeedRecord} : r ∈ f.rows scope ↔
    f.store.records.find? r.toRecordKey = some r.toStoredRecord ∧
      inFeed f.store r.toRecordKey = true ∧ f.created r.toRecordKey = r.created ∧
      scope r = true := by
  unfold Feed.rows
  rw [List.mem_filter, List.mem_map]
  constructor
  · rintro ⟨⟨stored, hstored, rfl⟩, hscope⟩
    obtain ⟨hrow, hin⟩ := List.mem_filter.mp hstored
    exact ⟨Table.mem_iff_find?.mp hrow, hin, rfl, hscope⟩
  · rintro ⟨hfind, hin, hcreated, hscope⟩
    refine ⟨⟨r.toStoredRecord, List.mem_filter.mpr ⟨Table.mem_of_find? hfind, hin⟩, ?_⟩, hscope⟩
    unfold Feed.stamped
    rw [hcreated]

theorem rows_nodup (scope : FeedRecord → Bool) (f : Feed β) :
    ((f.rows scope).map FeedRecord.key).Nodup := by
  have hkeys : (((f.store.records.rows.filter fun r => inFeed f.store r.toRecordKey).map
      f.stamped).map FeedRecord.key).Nodup := by
    rw [List.map_map]
    refine List.Nodup.map_on ?_ (f.store.records.rows_nodup.filter _)
    intro r hr r' hr' hsame
    have hrow := (List.mem_filter.mp hr).1
    have hrow' := (List.mem_filter.mp hr').1
    exact Table.eq_of_key_eq hrow hrow' (key_inj hsame).2
  exact hkeys.sublist (List.filter_sublist.map _)

theorem readFeed_follow (scope : FeedRecord → Bool) (f : Feed β) (limit : Nat) :
    readFeed scope f { after := f.cursor, limit := limit } =
      page FeedRecord.key limit f.cursor (f.rows scope) := by
  have hall : (f.rows scope).filter (FeedQuery.keeps { after := f.cursor, limit := limit }) =
      f.rows scope := List.filter_eq_self.mpr fun _ _ => rfl
  unfold readFeed
  rw [hall]
  rfl

theorem read_rows (scope : FeedRecord → Bool) (limit : Nat) (f : Feed β) :
    (f.read scope limit).rows scope = f.rows scope :=
  rfl

/-- Reading on gives what the library's follower is given. -/
theorem reads_received (scope : FeedRecord → Bool) (limit reads : Nat) (f : Feed β) :
    ((Feed.read scope limit)^[reads] f).received =
      f.received ++ follow FeedRecord.key limit (f.rows scope) reads f.cursor := by
  induction reads generalizing f with
  | zero => rw [Function.iterate_zero_apply, follow, List.append_nil]
  | succ reads ih =>
    rw [Function.iterate_succ_apply, ih, follow, read_rows, ← List.append_assoc]
    have hreceived : (f.read scope limit).received =
        f.received ++ page FeedRecord.key limit f.cursor (f.rows scope) := by
      rw [← readFeed_follow]
      rfl
    have hcursor : (f.read scope limit).cursor = nextCursor FeedRecord.key f.cursor
        (page FeedRecord.key limit f.cursor (f.rows scope)) := by
      rw [← readFeed_follow]
      rfl
    rw [hreceived, hcursor]

theorem read_received (scope : FeedRecord → Bool) (limit : Nat) (f : Feed β) :
    (f.read scope limit).received =
      f.received ++ page FeedRecord.key limit f.cursor (f.rows scope) := by
  rw [← readFeed_follow]
  rfl

theorem read_cursor (scope : FeedRecord → Bool) (limit : Nat) (f : Feed β) :
    (f.read scope limit).cursor =
      nextCursor FeedRecord.key f.cursor (page FeedRecord.key limit f.cursor (f.rows scope)) := by
  rw [← readFeed_follow]
  rfl

theorem mem_receivedKeys {k : RecordKey} :
    k ∈ f.receivedKeys ↔ ∃ r ∈ f.received, r.toRecordKey = k := by
  unfold Feed.receivedKeys
  rw [List.map_map]
  exact List.mem_map

/-- Two records of the feed under one key are one. -/
theorem rows_same {r r' : FeedRecord} (hr : r ∈ f.rows scope) (hr' : r' ∈ f.rows scope)
    (h : r.toRecordKey = r'.toRecordKey) : r = r' := by
  obtain ⟨_, _, hcreated, _⟩ := mem_rows.mp hr
  obtain ⟨_, _, hcreated', _⟩ := mem_rows.mp hr'
  refine List.inj_on_of_nodup_map (rows_nodup scope f) hr hr' ?_
  unfold FeedRecord.key
  rw [← hcreated, ← hcreated', h]

theorem Feed.Inv.read (h : f.Inv) (scope : FeedRecord → Bool) (limit : Nat) :
    (f.read scope limit).Inv := by
  have hpage : ∀ r ∈ page FeedRecord.key limit f.cursor (f.rows scope),
      r ∈ f.rows scope ∧ f.cursor < r.key := fun r hr => mem_ahead.mp (List.mem_of_mem_take hr)
  refine ⟨?_, ?_, ?_⟩
  · intro r hr
    rw [read_received] at hr
    rcases List.mem_append.mp hr with hold | hnew
    · exact h.stored r hold
    · obtain ⟨hfind, _, hcreated, _⟩ := mem_rows.mp (hpage r hnew).1
      refine ⟨?_, hcreated⟩
      show f.store.records.find? _ ≠ none
      rw [hfind]
      exact Option.some_ne_none _
  · unfold Feed.receivedKeys
    rw [read_received, List.map_append, List.map_append, List.nodup_append]
    refine ⟨h.nodup, ?_, ?_⟩
    · rw [List.map_map]
      refine List.Nodup.map_on ?_ ((ahead_nodup (rows_nodup scope f)).sublist (List.take_sublist _ _))
      intro r hr r' hr' hsame
      exact rows_same (hpage r hr).1 (hpage r' hr').1 hsame
    · intro k hk k' hk' hsame
      subst hsame
      obtain ⟨r, hr, rfl⟩ := mem_receivedKeys.mp hk
      rw [List.map_map] at hk'
      obtain ⟨r', hr', hkey⟩ := List.mem_map.mp hk'
      rw [Function.comp_apply] at hkey
      obtain ⟨hrow, hpast⟩ := hpage r' hr'
      obtain ⟨_, _, hcreated, _⟩ := mem_rows.mp hrow
      have hbehind := h.behind r hr
      have hsame : r'.key = r.key := by
        unfold FeedRecord.key
        rw [← hcreated, hkey, (h.stored r hr).2]
      rw [hsame] at hpast
      exact absurd hbehind (not_le_of_gt hpast)
  · intro r hr
    rw [read_received] at hr
    rw [read_cursor]
    rcases List.mem_append.mp hr with hold | hnew
    · exact (h.behind r hold).trans (le_nextCursor limit)
    · exact le_nextCursor_of_mem (rows_nodup scope f) hnew

/-- A page gives the reader whatever it passes. -/
theorem nothingLost_read_iff (limit : Nat) :
    (f.read scope limit).NothingLost scope ↔ f.NothingLost scope := by
  have hreceived : ∀ k, k ∈ (f.read scope limit).receivedKeys ↔ k ∈ f.receivedKeys ∨
      ∃ r ∈ page FeedRecord.key limit f.cursor (f.rows scope), r.toRecordKey = k := by
    intro k
    rw [mem_receivedKeys, mem_receivedKeys, read_received]
    simp only [List.mem_append, or_and_right, exists_or]
  constructor
  · intro hafter r hr hbehind
    have hnext : r.key ≤ (f.read scope limit).cursor := by
      rw [read_cursor]
      exact hbehind.trans (le_nextCursor limit)
    rcases (hreceived _).mp (hafter r hr hnext) with hold | ⟨r', hr', hkey⟩
    · exact hold
    · obtain ⟨hrow, hpast⟩ := mem_ahead.mp (List.mem_of_mem_take hr')
      rw [rows_same hrow hr hkey] at hpast
      exact absurd hbehind (not_le_of_gt hpast)
  · intro hbefore r hr hbehind
    rw [hreceived]
    by_cases hold : r.key ≤ f.cursor
    · exact Or.inl (hbefore r hr hold)
    · have hahead : r ∈ ahead FeedRecord.key f.cursor (f.rows scope) :=
        mem_ahead.mpr ⟨hr, lt_of_not_ge hold⟩
      rcases mem_page_or_past (rows_nodup scope f) limit hahead with hpage | hpast
      · exact Or.inr ⟨r, hpage, rfl⟩
      · rw [read_cursor] at hbehind
        exact absurd hbehind (not_le_of_gt hpast)

theorem Feed.Inv.reads (h : f.Inv) (scope : FeedRecord → Bool) (limit reads : Nat) :
    ((Feed.read scope limit)^[reads] f).Inv := by
  induction reads generalizing f with
  | zero => exact h
  | succ reads ih =>
    rw [Function.iterate_succ_apply]
    exact ih (h.read scope limit)

theorem follows_iff (h : f.Inv) : f.Follows scope ↔ f.NothingLost scope := by
  constructor
  · exact Feed.Follows.nothing_lost
  · intro hlost
    refine ⟨hlost, ?_⟩
    intro limit reads hlimit hreads r hr
    refine List.count_eq_one_of_mem (h.reads scope limit reads).nodup ?_
    rw [mem_receivedKeys, reads_received, follow_eq (rows_nodup scope f)]
    have hlength : (ahead FeedRecord.key f.cursor (f.rows scope)).length ≤ reads * limit := by
      have hahead := (List.mergeSort_perm ((f.rows scope).filter
        fun r => decide (f.cursor < r.key)) fun a b => decide (a.key ≤ b.key)).length_eq
      have hfilter := List.length_filter_le (fun r : FeedRecord => decide (f.cursor < r.key))
        (f.rows scope)
      have hmul : reads ≤ reads * limit := Nat.le_mul_of_pos_right reads hlimit
      unfold ahead
      omega
    rw [List.take_of_length_le hlength]
    by_cases hbehind : r.key ≤ f.cursor
    · obtain ⟨r', hr', hkey⟩ := mem_receivedKeys.mp (hlost r hr hbehind)
      exact ⟨r', List.mem_append_left _ hr', hkey⟩
    · exact ⟨r, List.mem_append_right _ (mem_ahead.mpr ⟨hr, lt_of_not_ge hbehind⟩), rfl⟩

theorem appendSessionRecords_sessions {session : UUID} {rows : List CapturedRow} {restart : Bool}
    {s s' : SessionStore β} {n : Nat × Nat}
    (h : appendSessionRecords session rows restart s = .ok (n, s')) :
    s'.sessions = s.sessions := by
  rw [appendSessionRecords, ite_run] at h
  split at h
  next =>
    cases h
    rfl
  next =>
    rw [get_bind_ok, orThrow_bind_ok] at h
    obtain ⟨_, _, hkind⟩ := h
    obtain ⟨_, hended⟩ := ensure_bind_ok.mp hkind
    obtain ⟨_, hlive⟩ := ensure_bind_ok.mp hended
    rw [appendLive, get_bind_ok] at hlive
    obtain ⟨_, t, hinsert, hrest⟩ := bind_ok.mp hlive
    obtain ⟨_, t', hcipher, hret⟩ := bind_ok.mp hrest
    cases hret
    rw [insertRecords, ensure_bind_ok, get_bind_ok, ensure_bind_ok, ensure_bind_ok] at hinsert
    obtain ⟨_, _, _, hset⟩ := hinsert
    cases hset
    obtain ⟨_, hmodify⟩ := ensure_bind_ok.mp hcipher
    cases hmodify
    rfl

/-- What an append that goes through leaves of the store. -/
theorem append_ok {session : UUID} {rows : List CapturedRow} {restart : Bool}
    {s s' : SessionStore β} {n : Nat × Nat}
    (h : appendSessionRecords session rows restart s = .ok (n, s')) :
    s'.sessions = s.sessions ∧ s'.manifests = s.manifests ∧
      ∀ k, s'.records.find? k = if restart then
          ((Table.lookup CapturedRow.key rows k).map CapturedRow.stored).or (s.records.find? k)
        else (s.records.find? k).or
          ((Table.lookup CapturedRow.key rows k).map CapturedRow.stored) := by
  refine ⟨appendSessionRecords_sessions h, ?_⟩
  rcases appendSessionRecords_ok h with ⟨rfl, rfl⟩ | happended
  · refine ⟨rfl, fun k => ?_⟩
    rw [Table.lookup_eq_none.mpr (List.forall_mem_nil _), Option.map_none, Option.none_or,
      Option.or_none, ite_self]
  · refine ⟨happended.manifests, fun k => ?_⟩
    rw [happended.records]
    cases restart with
    | true =>
      have hnodup : ((rows.map CapturedRow.stored).map StoredRecord.toRecordKey).Nodup := by
        rw [stored_keys]
        exact happended.distinct rfl
      rw [if_pos rfl, if_pos rfl, Table.find?_foldl_upsert _ hnodup, lookup_stored]
    | false =>
      rw [if_neg Bool.false_ne_true, if_neg Bool.false_ne_true, Table.find?_foldl_insertAbsent,
        lookup_stored]

theorem inFeed_congr {s s' : SessionStore β} (hsessions : s'.sessions = s.sessions)
    (hmanifests : s'.manifests = s.manifests) (k : RecordKey) : inFeed s' k = inFeed s k := by
  unfold inFeed isSession
  rw [hsessions, hmanifests]

theorem created_kept {a : OpenAppend} {k : RecordKey} {r : StoredRecord}
    (h : f.store.records.find? k = some r) : a.created f k = f.created k := by
  rw [OpenAppend.created, h]

/-- A commit loses nothing exactly when it is on time. -/
theorem nothingLost_commit_iff {session : UUID} {a : OpenAppend} {n : Nat × Nat}
    {store : SessionStore β} {appends : Table OpenAppend.session} (hlost : f.NothingLost scope)
    (hopen : f.appends.find? session = some a)
    (hrun : appendSessionRecords session a.captured a.restart f.store = .ok (n, store)) :
    ({ f with store := store, created := a.created f, appends := appends } : Feed β).NothingLost
      scope ↔ OnTime scope f (.commit session) := by
  obtain ⟨hsessions, hmanifests, hfind⟩ := append_ok hrun
  have hin := inFeed_congr hsessions hmanifests
  constructor
  · intro hafter a' hopen' k row hrow hwrites hlive hscope ⟨hbehind, hnot⟩
    rw [hopen] at hopen'
    obtain rfl := Option.some.inj hopen'
    refine hnot (hafter (a.written f row) (mem_rows.mpr ⟨?_, ?_, rfl, hscope⟩) hbehind)
    · show store.records.find? row.key = some row.stored
      have hkey : row.key = k := (Table.lookup_eq_some hrow).2
      rw [hkey, hfind, hrow, Option.map_some]
      split
      next => rfl
      next hkeep =>
        rw [hwrites.resolve_left hkeep, Option.none_or]
    · show inFeed store row.key = true
      rw [(Table.lookup_eq_some hrow).2, hin]
      exact hlive
  · intro hontime r hr hbehind
    obtain ⟨hstored, hlive, hcreated, hscope⟩ := mem_rows.mp hr
    have hstored' : store.records.find? r.toRecordKey = some r.toStoredRecord := hstored
    have hlive' : inFeed f.store r.toRecordKey = true := by
      rw [← hin]
      exact hlive
    have hcreated' : a.created f r.toRecordKey = r.created := hcreated
    -- A record that was there before is in the feed as it was; the others are the append's.
    have hold : f.store.records.find? r.toRecordKey = some r.toStoredRecord →
        r.toRecordKey ∈ f.receivedKeys := by
      intro hthere
      refine hlost r (mem_rows.mpr ⟨hthere, hlive', ?_, hscope⟩) hbehind
      rw [← created_kept hthere]
      exact hcreated'
    have hnew : ∀ row, Table.lookup CapturedRow.key a.captured r.toRecordKey = some row →
        (a.restart = true ∨ f.store.records.find? r.toRecordKey = none) →
        r.toStoredRecord = row.stored → r.toRecordKey ∈ f.receivedKeys := by
      intro row hrow hwrites hsame
      have hwritten : a.written f row = r := by
        have hkey : row.key = r.toRecordKey := (Table.lookup_eq_some hrow).2
        unfold OpenAppend.written
        rw [hkey, hcreated', ← hsame]
      by_contra hnot
      have hthis := hontime a hopen r.toRecordKey row hrow hwrites hlive'
      rw [hwritten] at hthis
      exact hthis hscope ⟨hbehind, hnot⟩
    rw [hfind] at hstored'
    cases hrow : Table.lookup CapturedRow.key a.captured r.toRecordKey with
    | none =>
      rw [hrow, Option.map_none, Option.none_or, Option.or_none, ite_self] at hstored'
      exact hold hstored'
    | some row =>
      rw [hrow, Option.map_some] at hstored'
      split at hstored'
      next hrestart =>
        exact hnew row hrow (Or.inl hrestart) (Option.some.inj hstored').symm
      next =>
        cases hthere : f.store.records.find? r.toRecordKey with
        | none =>
          rw [hthere, Option.none_or] at hstored'
          exact hnew row hrow (Or.inr hthere) (Option.some.inj hstored').symm
        | some old =>
          rw [hthere, Option.some_or] at hstored'
          exact hold (hthere.trans hstored')

/-- An upsert bounds its part alone. -/
theorem upsert_ok {session irId : UUID} {name format : Text} {metadata : PlainTree}
    {records part : Int} {apiKeyId : Option UUID} {exclusive : Bool} {s s' : SessionStore β}
    (h : upsertSessionManifest session name metadata irId format records apiKeyId exclusive s =
      .ok (part, s')) :
    s'.records = s.records ∧ ∀ k, inFeed s' k =
      if k.sessionId = session ∧ k.part = resolvePart s session name then
        isSession s session && decide (k.idx < records)
      else inFeed s k := by
  rw [upsertSessionManifest, get_bind_ok, ensure_bind_ok, ensure_bind_ok, ensure_bind_ok] at h
  obtain ⟨_, _, _, hset⟩ := h
  cases hset
  refine ⟨rfl, fun k => ?_⟩
  unfold inFeed
  dsimp only
  rw [Table.find?_upsert]
  generalize hrow : manifestRow s _ = row
  have hmanifest : row.toPartKey = ⟨session, resolvePart s session name⟩ ∧ row.records = records := by
    rw [← hrow]
    unfold manifestRow
    split
    next => exact ⟨rfl, rfl⟩
    next => exact ⟨rfl, rfl⟩
  rw [hmanifest.1]
  split
  next hpart =>
    obtain ⟨hsession, hpart⟩ := PartKey.mk.inj hpart
    rw [if_pos ⟨hsession.symm, hpart.symm⟩, Option.some_or, Option.any_some, hmanifest.2, ← hsession]
    rfl
  next hother =>
    rw [if_neg fun hsame => hother (by rw [hsame.1, hsame.2]), Option.none_or]
    rfl

/-- A manifest's upsert loses nothing exactly when it uncovers nothing the reader has passed. -/
theorem nothingLost_upsert_iff {session irId : UUID} {name format : Text} {metadata : PlainTree}
    {records part : Int} {apiKeyId : Option UUID} {exclusive : Bool} {store : SessionStore β}
    (hlost : f.NothingLost scope)
    (hrun : upsertSessionManifest session name metadata irId format records apiKeyId exclusive
      f.store = .ok (part, store)) :
    ({ f with store := store } : Feed β).NothingLost scope ↔
      OnTime scope f (.upsert session name metadata irId format records apiKeyId exclusive) := by
  obtain ⟨hrecords, hin⟩ := upsert_ok hrun
  constructor
  · intro hafter r hr hsession hpart hidx hkind hscope ⟨hbehind, hnot⟩
    refine hnot (hafter (f.stamped r) (mem_rows.mpr ⟨?_, ?_, rfl, hscope⟩) hbehind)
    · show store.records.find? r.toRecordKey = some r
      rw [hrecords]
      exact Table.mem_iff_find?.mp hr
    · show inFeed store r.toRecordKey = true
      rw [hin, if_pos ⟨hsession, hpart⟩, hkind, Bool.true_and]
      exact decide_eq_true hidx
  · intro hontime r hr hbehind
    obtain ⟨hstored, hlive, hcreated, hscope⟩ := mem_rows.mp hr
    have hstored' : f.store.records.find? r.toRecordKey = some r.toStoredRecord := by
      rw [← hrecords]
      exact hstored
    have hlive' : inFeed store r.toRecordKey = true := hlive
    rw [hin] at hlive'
    split at hlive'
    next hpart =>
      rw [Bool.and_eq_true, decide_eq_true_eq] at hlive'
      have hstamped : f.stamped r.toStoredRecord = r := by
        have hcreated' : f.created r.toRecordKey = r.created := hcreated
        unfold Feed.stamped
        rw [hcreated']
      by_contra hnot
      have hthis := hontime r.toStoredRecord (Table.mem_of_find? hstored') hpart.1 hpart.2
        hlive'.2 hlive'.1
      rw [hstamped] at hthis
      exact hthis hscope ⟨hbehind, hnot⟩
    next => exact hlost r (mem_rows.mpr ⟨hstored', hlive', hcreated, hscope⟩) hbehind

theorem Feed.Inv.step (h : f.Inv) {act : Act} (hstep : f.step scope act = some f') : f'.Inv := by
  cases act with
  | elapse ticks =>
    cases hstep
    exact ⟨h.stored, h.nodup, h.behind⟩
  | start session restart =>
    obtain ⟨appends, _, rfl⟩ := Option.map_eq_some_iff.mp hstep
    exact ⟨h.stored, h.nodup, h.behind⟩
  | insert session row =>
    rw [Feed.step] at hstep
    split at hstep
    next =>
      cases hstep
      exact ⟨h.stored, h.nodup, h.behind⟩
    next => cases hstep
  | commit session =>
    rw [Feed.step] at hstep
    split at hstep
    next => cases hstep
    next a hopen =>
      split at hstep
      next n store hrun =>
        cases hstep
        obtain ⟨_, _, hfind⟩ := append_ok hrun
        refine ⟨fun r hr => ?_, h.nodup, h.behind⟩
        obtain ⟨hthere, hcreated⟩ := h.stored r hr
        obtain ⟨old, hold⟩ := Option.ne_none_iff_exists'.mp hthere
        refine ⟨?_, (created_kept hold).trans hcreated⟩
        show store.records.find? r.toRecordKey ≠ none
        rw [hfind, hold]
        split
        next => simp
        next => simp
      next => cases hstep
  | rollback session =>
    cases hstep
    exact ⟨h.stored, h.nodup, h.behind⟩
  | upsert session name metadata irId format records apiKeyId exclusive =>
    rw [Feed.step] at hstep
    split at hstep
    next => cases hstep
    next =>
      split at hstep
      next part store hrun =>
        cases hstep
        refine ⟨fun r hr => ?_, h.nodup, h.behind⟩
        show store.records.find? r.toRecordKey ≠ none ∧ _
        rw [(upsert_ok hrun).1]
        exact h.stored r hr
      next => cases hstep
  | read limit =>
    cases hstep
    exact h.read scope limit

/-- A step from a state where nothing is lost loses nothing exactly when it is on time. -/
theorem nothingLost_step_iff (hlost : f.NothingLost scope) {act : Act}
    (hstep : f.step scope act = some f') : f'.NothingLost scope ↔ OnTime scope f act := by
  cases act with
  | elapse ticks =>
    cases hstep
    exact iff_of_true hlost trivial
  | start session restart =>
    obtain ⟨appends, _, rfl⟩ := Option.map_eq_some_iff.mp hstep
    exact iff_of_true hlost trivial
  | insert session row =>
    rw [Feed.step] at hstep
    split at hstep
    next =>
      cases hstep
      exact iff_of_true hlost trivial
    next => cases hstep
  | commit session =>
    rw [Feed.step] at hstep
    split at hstep
    next => cases hstep
    next a hopen =>
      split at hstep
      next n store hrun =>
        cases hstep
        exact nothingLost_commit_iff hlost hopen hrun
      next => cases hstep
  | rollback session =>
    cases hstep
    exact iff_of_true hlost trivial
  | upsert session name metadata irId format records apiKeyId exclusive =>
    rw [Feed.step] at hstep
    split at hstep
    next => cases hstep
    next =>
      split at hstep
      next part store hrun =>
        cases hstep
        exact nothingLost_upsert_iff hlost hrun
      next => cases hstep
  | read limit =>
    cases hstep
    exact iff_of_true ((nothingLost_read_iff limit).mpr hlost) trivial

/-- A reader that starts before the feed follows it in every state of a run exactly when every
commit and every manifest's upsert of the run is on time. -/
theorem feed_follows_iff {store : SessionStore β} {created : RecordKey → Nat} {now : Nat}
    {trace : List Act}
    (hrun : Trace.run (Feed.step scope) { store := store, created := created, now := now } trace =
      some f) :
    (∀ before, before <+: trace → ∀ u, Trace.run (Feed.step scope)
        { store := store, created := created, now := now } before = some u → u.Follows scope) ↔
      Trace.Along (Feed.step scope) (OnTime scope)
        { store := store, created := created, now := now } trace := by
  have hinv : Feed.Inv { store := store, created := created, now := now } :=
    ⟨List.forall_mem_nil _, List.nodup_nil, List.forall_mem_nil _⟩
  have hstart : Feed.Follows scope { store := store, created := created, now := now } := by
    rw [follows_iff hinv]
    exact fun r _ hbehind => absurd hbehind (WithBot.not_coe_le_bot _)
  have hiff := Trace.throughout_iff (P := fun u => u.Follows scope) (I := Feed.Inv)
    (Q := OnTime scope) hinv (fun hu hstep => hu.step hstep)
    (fun hu hfollows hstep => by
      rw [follows_iff (hu.step hstep)]
      exact nothingLost_step_iff hfollows.nothing_lost hstep) hrun
  rw [hiff]
  exact and_iff_right hstart

/-- A commit writes rows that are all past the cursor. -/
def Feed.Later (f : Feed β) : Act → Prop
  | .commit session => ∀ a ∈ f.appends.find? session, ∀ row ∈ a.captured,
      f.cursor < (a.written f row).key
  | .upsert _ _ _ _ _ _ _ _ => False
  | _ => True

instance decidableLater (f : Feed β) : (act : Act) → Decidable (f.Later act)
  | .commit session => inferInstanceAs (Decidable (∀ a ∈ f.appends.find? session, _))
  | .upsert _ _ _ _ _ _ _ _ => isFalse id
  | .elapse _ | .start _ _ | .insert _ _ | .rollback _ | .read _ => isTrue trivial

theorem Feed.Later.onTime {act : Act} (h : f.Later act) : OnTime scope f act := by
  cases act with
  | commit session =>
    intro a ha k row hrow _ _ _ hpassed
    have hmem := (Table.lookup_eq_some hrow).1
    exact absurd hpassed.1 (not_le_of_gt (h a ha row hmem))
  | upsert session name metadata irId format records apiKeyId exclusive => exact absurd h id
  | elapse ticks => trivial
  | start session restart => trivial
  | insert session row => trivial
  | rollback session => trivial
  | read limit => trivial

/-- Two sessions, each with a part of one record. -/
def twoSessions : SessionStore Unit where
  sessions := ⟨[⟨1, .agentSession, none⟩, ⟨2, .agentSession, none⟩], by decide⟩
  manifests := ⟨[⟨⟨1, 0⟩, ['a'], [], 1, [], 1, none⟩, ⟨⟨2, 0⟩, ['b'], [], 2, [], 1, none⟩], by decide⟩

def said (session : UUID) : CapturedRow where
  sessionId := session
  part := 0
  idx := 0
  kind := "UserMessage".toList
  payload := []
  unique := uniqueKeys_empty

def everything (_ : FeedRecord) : Bool := true

/-- Two records of two sessions, each committed and read before the next is stamped. -/
def inTurn : List Act :=
  [.start 1 false, .insert 1 (said 1), .commit 1, .read 200, .elapse 1, .start 2 false,
    .insert 2 (said 2), .commit 2, .read 200]

theorem feed_follows_one : ∃ f, Trace.run (Feed.step everything) { store := twoSessions } inTurn =
      some f ∧ f.receivedKeys = [⟨1, 0, 0⟩, ⟨2, 0, 0⟩] ∧ f.Follows everything := by
  have hend : (Trace.run (Feed.step everything) { store := twoSessions } inTurn).any
      (fun f => decide (f.receivedKeys = [⟨1, 0, 0⟩, ⟨2, 0, 0⟩])) = true := by decide +kernel
  obtain ⟨f, hrun, hreceived⟩ := (Option.any_eq_true _ _).mp hend
  have hlater : Trace.Along (Feed.step everything) Feed.Later { store := twoSessions } inTurn := by
    decide +kernel
  exact ⟨f, hrun, of_decide_eq_true hreceived,
    (feed_follows_iff hrun).mpr (hlater.mono fun _ _ h => h.onTime) _ List.prefix_rfl f hrun⟩

/-- One session's record is stamped first and committed last, with a read between. -/
def lateRecord : List Act :=
  [.start 1 false, .insert 1 (said 1), .elapse 1, .start 2 false, .insert 2 (said 2), .commit 2,
    .read 200, .commit 1]

/-- The manifest of a part whose record is older grows after the reader has passed it. -/
def lateManifest : List Act :=
  [.upsert 1 ['a'] (.dict []) 1 [] 0 none false, .start 1 false, .insert 1 (said 1), .commit 1,
    .elapse 1, .start 2 false, .insert 2 (said 2), .commit 2, .read 200,
    .upsert 1 ['a'] (.dict []) 1 [] 1 none false]

/-- After the run a record of session 1 is in the feed, and the reader never receives it. -/
def Loses (trace : List Act) : Prop :=
  ∃ f, Trace.run (Feed.step everything) { store := twoSessions } trace = some f ∧
    ∃ r ∈ f.rows everything, r.toRecordKey = ⟨1, 0, 0⟩ ∧
      r.toRecordKey ∉ ((Feed.read everything 200)^[2] f).receivedKeys ∧ ¬ f.Follows everything

theorem loses_of_run {trace : List Act}
    (h : (Trace.run (Feed.step everything) { store := twoSessions } trace).any (fun f => decide
      (∃ r ∈ f.rows everything, r.toRecordKey = ⟨1, 0, 0⟩ ∧ r.key ≤ f.cursor ∧
        r.toRecordKey ∉ f.receivedKeys ∧
        r.toRecordKey ∉ ((Feed.read everything 200)^[2] f).receivedKeys)) = true) :
    Loses trace := by
  obtain ⟨f, hrun, hfound⟩ := (Option.any_eq_true _ _).mp h
  obtain ⟨r, hr, hkey, hbehind, hnot, hnever⟩ := of_decide_eq_true hfound
  exact ⟨f, hrun, r, hr, hkey, hnever, fun hfollows => hnot (hfollows.nothing_lost r hr hbehind)⟩

theorem feed_loses : Loses lateRecord ∧ Loses lateManifest :=
  ⟨loses_of_run (by decide +kernel), loses_of_run (by decide +kernel)⟩

end Follow

end Trackinizer.Feeds
