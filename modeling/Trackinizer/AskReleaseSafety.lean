import Trackinizer.AskRelease

namespace Trackinizer.Asks

open Keyed Transact Interleave

section Parts

variable {β : Type} {s s' : SessionStore β} {sessionId : UUID} {name : Text}

/-- The manifest is the named file's. -/
def Names (s : SessionStore β) (sessionId : UUID) (name : Text) (m : SessionManifest) : Prop :=
  m ∈ s.manifests.rows ∧ m.sessionId = sessionId ∧ m.name = name

theorem resolvePart_cases (s : SessionStore β) (sessionId : UUID) (name : Text) :
    (∃ m, Names s sessionId name m ∧ resolvePart s sessionId name = m.part) ∨
      (readSessionManifest s sessionId name = none ∧
        ∀ m ∈ s.manifests.rows, m.sessionId = sessionId →
          m.part < resolvePart s sessionId name) := by
  unfold resolvePart
  cases hfind : s.manifests.rows.find?
      fun m => decide (m.sessionId = sessionId ∧ m.name = name) with
  | some m =>
      have hmem := List.mem_of_find?_eq_some hfind
      have hnamed := List.find?_some hfind
      rw [decide_eq_true_eq] at hnamed
      exact Or.inl ⟨m, ⟨hmem, hnamed⟩, rfl⟩
  | none =>
      refine Or.inr ⟨hfind, ?_⟩
      intro m hm hsession
      have hpart : m.part ∈ (s.manifests.rows.filter fun m =>
          decide (m.sessionId = sessionId)).map fun m => m.part :=
        List.mem_map.mpr ⟨m, List.mem_filter.mpr ⟨hm, decide_eq_true hsession⟩, rfl⟩
      cases hmax : ((s.manifests.rows.filter fun m =>
          decide (m.sessionId = sessionId)).map fun m => m.part).max? with
      | none =>
          rw [List.max?_eq_none_iff.mp hmax] at hpart
          cases hpart
      | some top =>
          have hle := (List.max?_eq_some_iff.mp hmax).2 _ hpart
          simp only
          omega

/-- What a committed upsert of a manifest did. -/
structure Upserted (sessionId : UUID) (name : Text) (records part : Int)
    (s s' : SessionStore β) : Prop where
  resolved : part = resolvePart s sessionId name
  stored : ∃ row : SessionManifest, row.toPartKey = ⟨sessionId, part⟩ ∧ row.name = name ∧
    row.records = records ∧ s' = { s with manifests := s.manifests.upsert row }

theorem upsertSessionManifest_ok {irId : UUID} {format : Text} {metadata : PlainTree}
    {records part : Int} {apiKeyId : Option UUID} {exclusive : Bool}
    (h : upsertSessionManifest sessionId name metadata irId format records apiKeyId exclusive s =
      .ok (part, s')) : Upserted sessionId name records part s s' := by
  rw [upsertSessionManifest, get_bind_ok, ensure_bind_ok, ensure_bind_ok, ensure_bind_ok] at h
  obtain ⟨_, _, _, hset⟩ := h
  cases hset
  refine ⟨rfl, _, ?_, ?_, ?_, rfl⟩
  all_goals
    unfold manifestRow
    split <;> rfl

/-- No two parts of the session are of one file. -/
def Distinct (s : SessionStore β) (sessionId : UUID) (name : Text) : Prop :=
  ∀ m m', Names s sessionId name m → Names s sessionId name m' → m = m'

theorem readSessionManifest_names {m : SessionManifest}
    (h : readSessionManifest s sessionId name = some m) : Names s sessionId name m := by
  have hnamed := List.find?_some h
  rw [decide_eq_true_eq] at hnamed
  exact ⟨List.mem_of_find?_eq_some h, hnamed⟩

theorem Distinct.read {m : SessionManifest} (h : Distinct s sessionId name)
    (hm : Names s sessionId name m) : readSessionManifest s sessionId name = some m := by
  cases hread : readSessionManifest s sessionId name with
  | none =>
      have hnone := List.find?_eq_none.mp hread m hm.1
      rw [decide_eq_true_eq] at hnone
      exact absurd hm.2 hnone
  | some m' => rw [h m' m (readSessionManifest_names hread) hm]

/-- Stores with the same parts of a file read the same manifest. -/
theorem Distinct.congr (h : Distinct s sessionId name)
    (hsame : ∀ m, Names s' sessionId name m ↔ Names s sessionId name m) :
    Distinct s' sessionId name ∧
      readSessionManifest s' sessionId name = readSessionManifest s sessionId name := by
  have hdistinct : Distinct s' sessionId name := by
    intro m m' hm hm'
    exact h m m' ((hsame m).mp hm) ((hsame m').mp hm')
  refine ⟨hdistinct, ?_⟩
  apply Option.ext
  intro m
  constructor
  · intro hm
    exact h.read ((hsame m).mp (readSessionManifest_names hm))
  · intro hm
    exact hdistinct.read ((hsame m).mpr (readSessionManifest_names hm))

/-- The parts of a file after an upsert: the file's own is the upserted one, and those of the
other files stay. -/
theorem Upserted.names {other : Text} {session : UUID} {records part : Int} {m : SessionManifest}
    (h : Upserted sessionId name records part s s') (hother : session = sessionId → name ≠ other)
    (hm : Names s session other m) : Names s' session other m := by
  obtain ⟨row, hkey, hname, _, rfl⟩ := h.stored
  refine ⟨Table.mem_upsert.mpr (Or.inr ⟨hm.1, ?_⟩), hm.2⟩
  intro hsame
  rw [hkey, h.resolved] at hsame
  have hsession : m.sessionId = sessionId := congrArg PartKey.sessionId hsame
  have hpart : m.part = resolvePart s sessionId name := congrArg PartKey.part hsame
  rcases resolvePart_cases s sessionId name with ⟨m', hm', hresolved⟩ | ⟨_, habove⟩
  · have hkeys : m.toPartKey = m'.toPartKey := by
      rw [hsame, hresolved, ← hm'.2.1]
    have heq : m = m' := Table.eq_of_key_eq hm.1 hm'.1 hkeys
    exact hother (hm.2.1.symm.trans hsession) (by rw [← hm'.2.2, ← heq, hm.2.2])
  · have hlt := habove m hm.1 hsession
    omega

theorem Upserted.names_iff {session : UUID} {records part : Int} (other : Text)
    (h : Upserted sessionId name records part s s') (hother : session = sessionId → name ≠ other)
    (m : SessionManifest) : Names s' session other m ↔ Names s session other m := by
  constructor
  · intro hm
    obtain ⟨row, hkey, hname, _, hs'⟩ := h.stored
    have hmem := hm.1
    rw [hs'] at hmem
    rcases Table.mem_upsert.mp hmem with rfl | ⟨hold, _⟩
    · have hsession : m.sessionId = sessionId := congrArg PartKey.sessionId hkey
      exact absurd (hname.symm.trans hm.2.2) (hother (hm.2.1.symm.trans hsession))
    · exact ⟨hold, hm.2⟩
  · exact h.names hother

/-- A part that is there stays there. -/
theorem Upserted.part_mem {session : UUID} {records part p : Int}
    (h : Upserted sessionId name records part s s')
    (hp : ∃ m ∈ s.manifests.rows, m.sessionId = session ∧ m.part = p) :
    ∃ m ∈ s'.manifests.rows, m.sessionId = session ∧ m.part = p := by
  obtain ⟨m, hm, hsession, hpart⟩ := hp
  obtain ⟨row, hkey, _, _, rfl⟩ := h.stored
  by_cases hsame : m.toPartKey = row.toPartKey
  · refine ⟨row, Table.mem_upsert.mpr (Or.inl rfl), ?_, ?_⟩
    · rw [← hsession, hsame]
    · rw [← hpart, hsame]
  · exact ⟨m, Table.mem_upsert.mpr (Or.inr ⟨hm, hsame⟩), hsession, hpart⟩

end Parts

section Invariant

variable {β : Type} {c : AskCodec} {s s' : SessionStore β} {sessionId : UUID}

/-- The manifest of the part the releases are in. -/
abbrev asksManifest (s : SessionStore β) (sessionId : UUID) : Option SessionManifest :=
  readSessionManifest s sessionId asksPart

structure StoreInv (s : SessionStore β) (sessionId : UUID) : Prop where
  distinct : Distinct s sessionId asksPart
  parted : ∀ part idx r, s.records.find? ⟨sessionId, part, idx⟩ = some r →
    ∃ m ∈ s.manifests.rows, m.sessionId = sessionId ∧ m.part = part
  counted : ∀ m, asksManifest s sessionId = some m → ∀ idx r,
    s.records.find? ⟨sessionId, m.part, idx⟩ = some r → idx < m.records

/-- The part of the releases only grows. -/
structure Extends (sessionId : UUID) (s s' : SessionStore β) : Prop where
  manifest : ∀ m, asksManifest s sessionId = some m →
    ∃ m', asksManifest s' sessionId = some m' ∧ m'.part = m.part ∧ m.records ≤ m'.records
  messages : ∀ m, asksManifest s sessionId = some m → ∀ idx r,
    s.records.find? ⟨sessionId, m.part, idx⟩ = some r → r.kind = "SystemMessage".toList →
      s'.records.find? ⟨sessionId, m.part, idx⟩ = some r

/-- It is left as it is. -/
structure Quiet (sessionId : UUID) (s s' : SessionStore β) : Prop where
  manifest : asksManifest s' sessionId = asksManifest s sessionId
  free : ∀ m, asksManifest s sessionId = some m → ∀ idx,
    s'.records.find? ⟨sessionId, m.part, idx⟩ = none ↔
      s.records.find? ⟨sessionId, m.part, idx⟩ = none
  messages : ∀ m, asksManifest s sessionId = some m → ∀ idx r,
    s.records.find? ⟨sessionId, m.part, idx⟩ = some r → r.kind = "SystemMessage".toList →
      s'.records.find? ⟨sessionId, m.part, idx⟩ = some r

theorem Quiet.extends (h : Quiet sessionId s s') : Extends sessionId s s' := by
  refine ⟨?_, h.messages⟩
  intro m hm
  exact ⟨m, h.manifest.trans hm, rfl, le_rfl⟩

theorem Quiet.refl (s : SessionStore β) : Quiet sessionId s s :=
  ⟨rfl, fun _ _ _ => Iff.rfl, fun _ _ _ _ hr _ => hr⟩

theorem Extends.trans {s'' : SessionStore β} (h : Extends sessionId s s')
    (h' : Extends sessionId s' s'') : Extends sessionId s s'' := by
  refine ⟨?_, ?_⟩
  · intro m hm
    obtain ⟨m', hm', hpart, hle⟩ := h.manifest m hm
    obtain ⟨m'', hm'', hpart', hle'⟩ := h'.manifest m' hm'
    exact ⟨m'', hm'', hpart'.trans hpart, hle.trans hle'⟩
  · intro m hm idx r hr hkind
    obtain ⟨m', hm', hpart, _⟩ := h.manifest m hm
    have hmid := h.messages m hm idx r hr hkind
    rw [← hpart] at hmid ⊢
    exact h'.messages m' hm' idx r hmid hkind

/-- Of the store invariant, what a step has to show besides leaving the part as it is. -/
theorem StoreInv.of_quiet (h : StoreInv s sessionId) (hquiet : Quiet sessionId s s')
    (hdistinct : Distinct s' sessionId asksPart)
    (hparted : ∀ part idx r, s'.records.find? ⟨sessionId, part, idx⟩ = some r →
      ∃ m ∈ s'.manifests.rows, m.sessionId = sessionId ∧ m.part = part) :
    StoreInv s' sessionId := by
  refine ⟨hdistinct, hparted, ?_⟩
  intro m hm idx r hr
  rw [hquiet.manifest] at hm
  cases hold : s.records.find? ⟨sessionId, m.part, idx⟩ with
  | none =>
      rw [(hquiet.free m hm idx).mpr hold] at hr
      cases hr
  | some r' => exact h.counted m hm idx r' hold

theorem Quiet.of_same (hmanifests : s'.manifests = s.manifests) (hrecords : s'.records = s.records) :
    Quiet sessionId s s' := by
  refine ⟨?_, ?_, ?_⟩
  · unfold asksManifest readSessionManifest
    rw [hmanifests]
  · intro m _ idx
    rw [hrecords]
  · intro m _ idx r hr _
    rwa [hrecords]

theorem StoreInv.of_same (h : StoreInv s sessionId) (hmanifests : s'.manifests = s.manifests)
    (hrecords : s'.records = s.records) : StoreInv s' sessionId := by
  refine h.of_quiet (Quiet.of_same hmanifests hrecords) ?_ ?_
  · intro m m' hm hm'
    unfold Names at hm hm'
    rw [hmanifests] at hm hm'
    exact h.distinct m m' hm hm'
  · intro part idx r hr
    rw [hrecords] at hr
    rw [hmanifests]
    exact h.parted part idx r hr

/-- Rows appended to the parts of other files leave the releases alone. -/
theorem appended_quiet {rows : List CapturedRow} {restart : Bool} (h : Appended rows restart s s')
    (hinv : StoreInv s sessionId)
    (hspares : ∀ row ∈ rows, row.sessionId = sessionId →
      ∃ m ∈ s.manifests.rows, m.sessionId = sessionId ∧ m.part = row.part ∧ m.name ≠ asksPart) :
    StoreInv s' sessionId ∧ Quiet sessionId s s' := by
  have hmanifest : asksManifest s' sessionId = asksManifest s sessionId := by
    unfold asksManifest readSessionManifest
    rw [h.manifests]
  have hslot : ∀ m, asksManifest s sessionId = some m → ∀ idx,
      s'.records.find? ⟨sessionId, m.part, idx⟩ = s.records.find? ⟨sessionId, m.part, idx⟩ := by
    intro m hm idx
    apply h.find?_of_not_mem
    intro row hrow hkey
    have hsession : row.sessionId = sessionId := congrArg RecordKey.sessionId hkey
    have hpart : row.part = m.part := congrArg RecordKey.part hkey
    obtain ⟨m', hm', hsession', hpart', hname⟩ := hspares row hrow hsession
    obtain ⟨hmem, hsession'', hname''⟩ := readSessionManifest_names hm
    have hkeys : m'.toPartKey = m.toPartKey := by
      rw [PartKey.mk.injEq]
      exact ⟨hsession'.trans hsession''.symm, hpart'.trans hpart⟩
    exact hname (by rw [Table.eq_of_key_eq hm' hmem hkeys, hname''])
  have hquiet : Quiet sessionId s s' := by
    refine ⟨hmanifest, ?_, ?_⟩
    · intro m hm idx
      rw [hslot m hm idx]
    · intro m hm idx r hr _
      rwa [hslot m hm idx]
  refine ⟨hinv.of_quiet hquiet ?_ ?_, hquiet⟩
  · intro m m' hm hm'
    unfold Names at hm hm'
    rw [h.manifests] at hm hm'
    exact hinv.distinct m m' hm hm'
  · intro part idx r hr
    rw [h.manifests]
    by_cases hmem : ∀ row ∈ rows, row.key ≠ ⟨sessionId, part, idx⟩
    · rw [h.find?_of_not_mem hmem] at hr
      exact hinv.parted part idx r hr
    · push Not at hmem
      obtain ⟨row, hrow, hkey⟩ := hmem
      obtain ⟨m, hm, hsession, hpart, _⟩ :=
        hspares row hrow (congrArg RecordKey.sessionId hkey)
      exact ⟨m, hm, hsession, hpart.trans (congrArg RecordKey.part hkey)⟩

/-- An upsert of another file's manifest leaves the releases alone. -/
theorem Upserted.quiet {session : UUID} {name : Text} {records part : Int}
    (h : Upserted session name records part s s') (hinv : StoreInv s sessionId)
    (hspares : session = sessionId → name ≠ asksPart) :
    StoreInv s' sessionId ∧ Quiet sessionId s s' := by
  have hsame : ∀ m, Names s' sessionId asksPart m ↔ Names s sessionId asksPart m :=
    h.names_iff asksPart fun hs => hspares hs.symm
  have hnames := hinv.distinct.congr hsame
  have hrecords : s'.records = s.records := by
    obtain ⟨row, _, _, _, rfl⟩ := h.stored
    rfl
  have hquiet : Quiet sessionId s s' := by
    refine ⟨hnames.2, ?_, ?_⟩
    · intro m _ idx
      rw [hrecords]
    · intro m _ idx r hr _
      rwa [hrecords]
  refine ⟨hinv.of_quiet hquiet hnames.1 ?_, hquiet⟩
  intro p idx r hr
  rw [hrecords] at hr
  exact h.part_mem (hinv.parted p idx r hr)

/-- System messages are not among the rows an offload moves. -/
theorem headPicked_message {shardOf : UUID → Nat} {shards shard batch : Nat}
    {locked : RecordKey → Bool} {r : StoredRecord} (hr : r ∈ s.records.rows)
    (hkind : r.kind = "SystemMessage".toList) :
    headPicked (offloadPicks shardOf shards shard batch locked s.records) r = r := by
  unfold headPicked
  split
  next hpicked =>
    obtain ⟨p, hp, hkey⟩ := List.mem_map.mp hpicked
    have hsame : p = r := Table.eq_of_key_eq (mem_offloadPicks hp).1 hr hkey
    unfold offloadPicks at hp
    have hmem := List.mem_mergeSort.mp (List.mem_of_mem_take hp)
    have hheavy := (List.mem_filter.mp hmem).2
    simp only [Bool.and_eq_true, decide_eq_true_eq] at hheavy
    rw [hsame, hkind] at hheavy
    exact absurd hheavy.1.1 (by decide)
  next => rfl

theorem offloadBatch_quiet {bodies : BodyCodec β} {shardOf : UUID → Nat}
    {shards shard batch n : Nat} {locked : RecordKey → Bool}
    (h : offloadBatch bodies shardOf shards shard batch locked s = .ok (n, s'))
    (hinv : StoreInv s sessionId) : StoreInv s' sessionId ∧ Quiet sessionId s s' := by
  rw [offloadBatch, ensure_bind_ok, get_bind_ok] at h
  obtain ⟨_, hset⟩ := h
  cases hset
  have hquiet : Quiet sessionId s { s with
      bodies := ((offloadPicks shardOf shards shard batch locked s.records).map
        (StoredRecord.body bodies)).foldl Table.upsert s.bodies
      records := s.records.update
        (headPicked (offloadPicks shardOf shards shard batch locked s.records))
        (headPicked_key _) } := by
    refine ⟨rfl, ?_, ?_⟩
    · intro m _ idx
      rw [Table.find?_update, Option.map_eq_none_iff]
    · intro m _ idx r hr hkind
      rw [Table.find?_update, hr, Option.map_some,
        headPicked_message (Table.mem_of_find? hr) hkind]
  refine ⟨hinv.of_quiet hquiet hinv.distinct ?_, hquiet⟩
  intro part idx r hr
  rw [Table.find?_update] at hr
  obtain ⟨r', hr', _⟩ := Option.map_eq_some_iff.mp hr
  exact hinv.parted part idx r' hr'

/-- Whatever is written to the session's other parts leaves the releases alone. -/
theorem Spares.quiet (bodies : BodyCodec β) (shardOf : UUID → Nat) {op : SessionOp}
    (hspares : Spares s sessionId op) (hinv : StoreInv s sessionId) :
    StoreInv (settle (op.run bodies shardOf) s) sessionId ∧
      Quiet sessionId s (settle (op.run bodies shardOf) s) := by
  cases op with
  | append session rows restart =>
      rw [SessionOp.run, settle_discard]
      rcases settle_cases (appendSessionRecords session rows restart) s with hs | ⟨n, hs⟩
      · rw [hs]
        exact ⟨hinv, Quiet.refl s⟩
      · rcases appendSessionRecords_ok hs with ⟨_, hsame⟩ | happended
        · rw [hsame]
          exact ⟨hinv, Quiet.refl s⟩
        · exact appended_quiet happended hinv hspares
  | upsertManifest session name metadata irId format records apiKeyId exclusive =>
      rw [SessionOp.run, settle_discard]
      rcases settle_cases (upsertSessionManifest session name metadata irId format records
        apiKeyId exclusive) s with hs | ⟨part, hs⟩
      · rw [hs]
        exact ⟨hinv, Quiet.refl s⟩
      · exact (upsertSessionManifest_ok hs).quiet hinv hspares
  | offload shards shard batch locked =>
      rw [SessionOp.run, settle_discard]
      rcases settle_cases (offloadBatch bodies shardOf shards shard batch locked) s with
        hs | ⟨n, hs⟩
      · rw [hs]
        exact ⟨hinv, Quiet.refl s⟩
      · exact offloadBatch_quiet hs hinv
  | endSession session ended =>
      exact ⟨hinv.of_same rfl rfl, Quiet.of_same rfl rfl⟩

/-- A position in the releases' part that no record is at yet. -/
theorem StoreInv.free_at (h : StoreInv s sessionId) {part : Int}
    (hpart : part = resolvePart s sessionId asksPart) (idx : Int)
    (hidx : startOf (asksManifest s sessionId) ≤ idx) :
    s.records.find? ⟨sessionId, part, idx⟩ = none := by
  cases hfind : s.records.find? ⟨sessionId, part, idx⟩ with
  | none => rfl
  | some r =>
      rcases resolvePart_cases s sessionId asksPart with ⟨m, hm, hresolved⟩ | ⟨_, habove⟩
      · have hread := h.distinct.read hm
        rw [hpart, hresolved] at hfind
        have hlt := h.counted m hread idx r hfind
        rw [show asksManifest s sessionId = some m from hread, startOf, Option.elim_some] at hidx
        omega
      · obtain ⟨m, hm, hsession, hsame⟩ := h.parted part idx r hfind
        have hlt := habove m hm hsession
        omega

/-- The releases' part after an upsert that counts on from the bound as it stands. -/
theorem Upserted.reserve {count : Nat} {part : Int}
    (h : Upserted sessionId asksPart (startOf (asksManifest s sessionId) + count) part s s')
    (hinv : StoreInv s sessionId) :
    StoreInv s' sessionId ∧ Extends sessionId s s' ∧ s'.records = s.records ∧
      ∃ m, asksManifest s' sessionId = some m ∧ m.part = part ∧
        m.records = startOf (asksManifest s sessionId) + count := by
  have hresolved := h.resolved
  have hparts := fun p (hp : ∃ m ∈ s.manifests.rows, m.sessionId = sessionId ∧ m.part = p) =>
    h.part_mem hp
  obtain ⟨row, hkey, hname, hcount, rfl⟩ := h.stored
  have hrow : Names { s with manifests := s.manifests.upsert row } sessionId asksPart row :=
    ⟨Table.mem_upsert.mpr (Or.inl rfl), congrArg PartKey.sessionId hkey, hname⟩
  have hpart : row.part = part := congrArg PartKey.part hkey
  have hold : ∀ m, Names s sessionId asksPart m → m.part = part := by
    intro m hm
    rcases resolvePart_cases s sessionId asksPart with ⟨m', hm', hresolved'⟩ | ⟨hnone, _⟩
    · rw [hinv.distinct m m' hm hm', hresolved, hresolved']
    · rw [hinv.distinct.read hm] at hnone
      cases hnone
  have honly : ∀ m, Names { s with manifests := s.manifests.upsert row } sessionId asksPart m →
      m = row := by
    intro m hm
    rcases Table.mem_upsert.mp hm.1 with heq | ⟨hmem, hne⟩
    · exact heq
    · have hsame := hold m ⟨hmem, hm.2⟩
      refine absurd ?_ hne
      rw [hkey, ← hsame, ← hm.2.1]
  have hdistinct : Distinct { s with manifests := s.manifests.upsert row } sessionId asksPart := by
    intro m m' hm hm'
    rw [honly m hm, honly m' hm']
  have hread := hdistinct.read hrow
  refine ⟨⟨hdistinct, ?_, ?_⟩, ⟨?_, ?_⟩, rfl, row, hread, hpart, hcount⟩
  · intro p idx r hr
    exact hparts p (hinv.parted p idx r hr)
  · intro m hm idx r hr
    obtain rfl := Option.some.inj (hread.symm.trans hm)
    rw [hpart] at hr
    by_contra hge
    have hfree := hinv.free_at hresolved idx (by omega)
    exact absurd (hfree.symm.trans hr) (by simp)
  · intro m hm
    refine ⟨row, hread, hpart.trans (hold m (readSessionManifest_names hm)).symm, ?_⟩
    have hstart : startOf (asksManifest s sessionId) = m.records := by
      rw [hm]
      rfl
    omega
  · intro m _ idx r hr _
    exact hr

end Invariant

section Calls

variable {β : Type} {c : AskCodec} {s s' : SessionStore β} {sessionId : UUID} {p p' : Phase}
  {call : Call}

/-- An id under which some record opens an ask. -/
def AskCodec.Opened (c : AskCodec) (askId : Text) : Prop :=
  askId ≠ [] ∧ ∃ payload, c.jsonText payload openedPath = some askId

/-- The payload of a release as it is stored. -/
def AskCodec.releasePayload (c : AskCodec) (askId stamp : Text) : Text :=
  encodedPayload (.dict (c.toPlain (released askId stamp)))

/-- A record of the releases' part closes the ask. -/
def Released (c : AskCodec) (s : SessionStore β) (sessionId : UUID) (askId : Text) : Prop :=
  ∃ m idx r, asksManifest s sessionId = some m ∧ idx < m.records ∧
    s.records.find? ⟨sessionId, m.part, idx⟩ = some r ∧ r.kind = "SystemMessage".toList ∧
      c.idAt resolvedPath r = some askId

theorem Released.mono {askId : Text} (h : Released c s sessionId askId)
    (hext : Extends sessionId s s') : Released c s' sessionId askId := by
  obtain ⟨m, idx, r, hm, hidx, hr, hkind, hid⟩ := h
  obtain ⟨m', hm', hpart, hle⟩ := hext.manifest m hm
  have hkept := hext.messages m hm idx r hr hkind
  rw [← hpart] at hkept
  exact ⟨m', idx, r, hm', hidx.trans_le hle, hkept, hkind, hid⟩

/-- What a call has made sure of when it stands between two transactions. -/
def PhaseInv (c : AskCodec) (s : SessionStore β) (sessionId : UUID) : Phase → Prop
  | .listed ids | .placed ids _ => ∀ askId ∈ ids, c.Opened askId
  | .reserved ids start part => (∀ askId ∈ ids, c.Opened askId) ∧
      ∃ m, asksManifest s sessionId = some m ∧ m.part = part ∧ start + ids.length ≤ m.records ∧
        ∀ number < ids.length, s.records.find? ⟨sessionId, part, start + (number : Int)⟩ = none
  | .returned ids => ∀ askId ∈ ids, Released c s sessionId askId
  | .start | .raised _ | .crashed => True

/-- The positions a call has reserved and not written. -/
def Phase.span : Phase → Option (Int × Int)
  | .reserved ids first _ => some (first, first + ids.length)
  | .start | .listed _ | .placed _ _ | .returned _ | .raised _ | .crashed => none

def Apart (p q : Phase) : Prop :=
  ∀ a ∈ p.span, ∀ b ∈ q.span, a.2 ≤ b.1 ∨ b.2 ≤ a.1

theorem Apart.symm {q : Phase} (h : Apart p q) : Apart q p := by
  intro b hb a ha
  exact (h a ha b hb).symm

theorem apart_of_span {q : Phase} (h : p.span = none) : Apart p q := by
  intro a ha
  rw [h] at ha
  cases ha

/-- A phase stays sound while the releases' part grows elsewhere. -/
theorem PhaseInv.mono (h : PhaseInv c s sessionId p) (hext : Extends sessionId s s')
    (hfree : ∀ a ∈ p.span, ∀ part, (∃ m, asksManifest s sessionId = some m ∧ m.part = part) →
      ∀ idx, a.1 ≤ idx → idx < a.2 → s.records.find? ⟨sessionId, part, idx⟩ = none →
        s'.records.find? ⟨sessionId, part, idx⟩ = none) :
    PhaseInv c s' sessionId p := by
  cases p with
  | start => trivial
  | listed ids => exact h
  | placed ids manifest => exact h
  | reserved ids start part =>
      obtain ⟨hopened, m, hm, hpart, hbound, hunwritten⟩ := h
      obtain ⟨m', hm', hpart', hle⟩ := hext.manifest m hm
      refine ⟨hopened, m', hm', hpart'.trans hpart, hbound.trans hle, ?_⟩
      intro number hnumber
      exact hfree (start, start + ids.length) rfl part ⟨m, hm, hpart⟩ (start + number)
        (by omega) (by omega) (hunwritten number hnumber)
  | returned ids =>
      intro askId hid
      exact (h askId hid).mono hext
  | raised e => trivial
  | crashed => trivial

/-- What the next transaction of a call can do. -/
inductive Advances (c : AskCodec) (sessionId : UUID) (call : Call) (s : SessionStore β) :
    Phase → SessionStore β → Phase → Prop where
  | list : Advances c sessionId call s .start s
      (if openAskIds c s sessionId = [] then .returned [] else .listed (openAskIds c s sessionId))
  | place (ids : List Text) :
      Advances c sessionId call s (.listed ids) s (.placed ids (asksManifest s sessionId))
  | reserve {ids : List Text} {manifest : Option SessionManifest} {part : Int}
      {s' : SessionStore β} :
      Upserted sessionId asksPart (startOf manifest + ids.length) part s s' →
      Advances c sessionId call s (.placed ids manifest) s' (.reserved ids (startOf manifest) part)
  | append {ids : List Text} {first part : Int} {s' : SessionStore β} :
      Appended (c.releases sessionId call part first ids) false s s' →
      Advances c sessionId call s (.reserved ids first part) s' (.returned ids)
  | skip (first part : Int) :
      Advances c sessionId call s (.reserved [] first part) s (.returned [])
  | refuse {p : Phase} (e : StoreError) :
      Advances c sessionId call s p s (refused e)

theorem advances_of_releaseStep (h : releaseStep c sessionId call s p = some (s', p')) :
    Advances c sessionId call s p s' p' := by
  cases p with
  | start =>
      cases h
      exact .list
  | listed ids =>
      cases h
      exact .place ids
  | placed ids manifest =>
      rw [releaseStep] at h
      cases hrun : reserve sessionId call manifest ids s with
      | error e =>
          rw [hrun] at h
          cases h
          exact .refuse e
      | ok result =>
          obtain ⟨part, t⟩ := result
          rw [hrun] at h
          cases h
          exact .reserve (upsertSessionManifest_ok hrun)
  | reserved ids first part =>
      rw [releaseStep] at h
      cases hrun : appendSessionRecords sessionId (c.releases sessionId call part first ids) false
          s with
      | error e =>
          rw [hrun] at h
          cases h
          exact .refuse e
      | ok result =>
          obtain ⟨n, t⟩ := result
          rw [hrun] at h
          cases h
          rcases appendSessionRecords_ok hrun with ⟨hempty, hsame⟩ | happended
          · have hnil : ids = [] := by
              unfold AskCodec.releases at hempty
              rwa [List.mapIdx_eq_nil_iff] at hempty
            rw [hnil, hsame]
            exact .skip first part
          · exact .append happended
  | returned ids => cases h
  | raised e => cases h
  | crashed => cases h

theorem phaseInv_refused (e : StoreError) : PhaseInv c s sessionId (refused e) := by
  cases e with
  | conflict message =>
      intro askId hid
      cases hid
  | _ => trivial

theorem span_refused (e : StoreError) : (refused e).span = none := by
  cases e <;> rfl

theorem mem_releases {part first : Int} {ids : List Text} {row : CapturedRow} :
    row ∈ c.releases sessionId call part first ids ↔
      ∃ number, ∃ h : number < ids.length,
        c.row sessionId part (first + number) (released ids[number] call.stamp) = row := by
  unfold AskCodec.releases
  rw [List.mem_mapIdx]

theorem releases_keys_nodup {part first : Int} (ids : List Text) :
    ((c.releases sessionId call part first ids).map CapturedRow.key).Nodup := by
  rw [List.Nodup, List.pairwise_iff_getElem]
  intro a b ha hb hlt hkey
  simp only [AskCodec.releases, List.getElem_map, List.getElem_mapIdx] at hkey
  have hidx : first + (a : Int) = first + b := congrArg RecordKey.idx hkey
  omega

/-- What an append of releases leaves in the slot of each id. -/
theorem Appended.release {part first : Int} {ids : List Text}
    (h : Appended (c.releases sessionId call part first ids) false s s') {number : Nat}
    (hnumber : number < ids.length)
    (hfree : s.records.find? ⟨sessionId, part, first + number⟩ = none) :
    s'.records.find? ⟨sessionId, part, first + number⟩ =
      some (c.row sessionId part (first + number) (released ids[number] call.stamp)).stored :=
  h.find?_of_mem (releases_keys_nodup ids) (mem_releases.mpr ⟨number, hnumber, rfl⟩) hfree

/-- Every other slot keeps what it had. -/
theorem Appended.other {part first : Int} {ids : List Text}
    (h : Appended (c.releases sessionId call part first ids) false s s') {k : RecordKey}
    (hk : ∀ number < ids.length, k ≠ ⟨sessionId, part, first + number⟩) :
    s'.records.find? k = s.records.find? k := by
  apply h.find?_of_not_mem
  intro row hrow hkey
  obtain ⟨number, hnumber, rfl⟩ := mem_releases.mp hrow
  exact hk number hnumber hkey.symm

/-- The rows a call had reserved are written: its asks are released. -/
theorem released_of_append {ids : List Text} {first part : Int}
    (h : Appended (c.releases sessionId call part first ids) false s s')
    (hstore : StoreInv s sessionId) (hphase : PhaseInv c s sessionId (.reserved ids first part))
    (hreads : ∀ askId, c.Opened askId →
      c.jsonText (c.releasePayload askId call.stamp) resolvedPath = some askId) :
    StoreInv s' sessionId ∧ Extends sessionId s s' ∧ PhaseInv c s' sessionId (.returned ids) := by
  obtain ⟨hopened, m, hm, hpart, hbound, hunwritten⟩ := hphase
  have hmanifest : asksManifest s' sessionId = asksManifest s sessionId := by
    unfold asksManifest readSessionManifest
    rw [h.manifests]
  have hslot : ∀ p idx r, s'.records.find? ⟨sessionId, p, idx⟩ = some r →
      s.records.find? ⟨sessionId, p, idx⟩ = some r ∨ p = part ∧ idx < first + ids.length := by
    intro p idx r hr
    by_cases hnew : ∀ number < ids.length,
        (⟨sessionId, p, idx⟩ : RecordKey) ≠ ⟨sessionId, part, first + number⟩
    · exact Or.inl ((Appended.other h hnew).symm.trans hr)
    · push Not at hnew
      obtain ⟨number, hnumber, hkey⟩ := hnew
      have hidx : idx = first + number := congrArg RecordKey.idx hkey
      exact Or.inr ⟨congrArg RecordKey.part hkey, by omega⟩
  refine ⟨⟨?_, ?_, ?_⟩, ⟨?_, ?_⟩, ?_⟩
  · intro a b ha hb
    unfold Names at ha hb
    rw [h.manifests] at ha hb
    exact hstore.distinct a b ha hb
  · intro p idx r hr
    rw [h.manifests]
    rcases hslot p idx r hr with hold | ⟨rfl, _⟩
    · exact hstore.parted p idx r hold
    · obtain ⟨hmem, hsession, _⟩ := readSessionManifest_names hm
      exact ⟨m, hmem, hsession, hpart⟩
  · intro m' hm' idx r hr
    rw [hmanifest] at hm'
    rcases hslot m'.part idx r hr with hold | ⟨_, hlt⟩
    · exact hstore.counted m' hm' idx r hold
    · obtain rfl := Option.some.inj (hm.symm.trans hm')
      omega
  · intro m' hm'
    exact ⟨m', hmanifest.trans hm', rfl, le_rfl⟩
  · intro m' _ idx r hr _
    exact h.find?_kept hr
  · intro askId hid
    obtain ⟨number, hnumber, rfl⟩ := List.getElem_of_mem hid
    have hstored := Appended.release h hnumber (hunwritten number hnumber)
    refine ⟨m, first + number, _, hmanifest.trans hm, by omega, by rw [hpart]; exact hstored, rfl,
      ?_⟩
    have hread := hreads _ (hopened _ hid)
    have hnonempty := (hopened _ hid).1
    exact Option.filter_eq_some_iff.mpr ⟨hread, decide_eq_true hnonempty⟩

/-- An ask is open when a live record opens it and none resolves it. -/
theorem mem_openAskIds {askId : Text} :
    askId ∈ openAskIds c s sessionId ↔
      (∃ r ∈ s.records.rows, Live s sessionId r ∧ c.idAt openedPath r = some askId) ∧
        ¬ ∃ r ∈ s.records.rows, Live s sessionId r ∧ c.idAt resolvedPath r = some askId := by
  have hread : ∀ path, askId ∈ ((s.records.rows.filter fun r =>
      decide (Live s sessionId r)).insertionSort
        fun a b => a.toRecordKey.le b.toRecordKey = true).filterMap (c.idAt path) ↔
      ∃ r ∈ s.records.rows, Live s sessionId r ∧ c.idAt path r = some askId := by
    intro path
    simp only [List.mem_filterMap, List.mem_insertionSort, List.mem_filter, decide_eq_true_eq,
      and_assoc]
  unfold openAskIds
  rw [List.mem_filter, List.mem_eraseDups, hread, decide_eq_true_eq, hread]

/-- An id of an open ask opens it in some record. -/
theorem opened_of_open {askId : Text} (h : askId ∈ openAskIds c s sessionId) :
    c.Opened askId := by
  obtain ⟨r, _, _, hid⟩ := (mem_openAskIds.mp h).1
  obtain ⟨hread, hnonempty⟩ := Option.filter_eq_some_iff.mp hid
  rw [decide_eq_true_eq] at hnonempty
  exact ⟨hnonempty, r.payload, hread⟩

/-- A released ask is not open. -/
theorem Released.not_open {askId : Text} (h : Released c s sessionId askId) :
    askId ∉ openAskIds c s sessionId := by
  obtain ⟨m, idx, r, hm, hidx, hr, hkind, hid⟩ := h
  intro hopen
  obtain ⟨hmem, hkey⟩ := Table.find?_eq_some.mp hr
  obtain ⟨hmanifest, hsession, _⟩ := readSessionManifest_names hm
  have hrsession : r.sessionId = sessionId := congrArg RecordKey.sessionId hkey
  have hrpart : r.part = m.part := congrArg RecordKey.part hkey
  have hridx : r.idx = idx := congrArg RecordKey.idx hkey
  refine (mem_openAskIds.mp hopen).2 ⟨r, hmem, ⟨hrsession, hkind, m, hmanifest, ?_, ?_, ?_⟩, hid⟩
  · exact hsession.trans hrsession.symm
  · exact hrpart.symm
  · rwa [hridx]

end Calls

section Runs

variable {β ι : Type} [DecidableEq ι] {cfg : Setting β ι} {w w' : World ι (SessionStore β) Phase}
  {a : Act ι}

/-- The database reads a stored release back, and no ask is opened by it. -/
def Setting.ReadsBack (cfg : Setting β ι) : Prop :=
  ∀ i askId, cfg.codec.Opened askId →
    cfg.codec.jsonText (cfg.codec.releasePayload askId (cfg.call i).stamp) resolvedPath =
        some askId ∧
      cfg.codec.jsonText (cfg.codec.releasePayload askId (cfg.call i).stamp) openedPath = none

structure Inv (cfg : Setting β ι) (w : World ι (SessionStore β) Phase) : Prop where
  store : StoreInv w.store cfg.sessionId
  phases : ∀ i, PhaseInv cfg.codec w.store cfg.sessionId (w.phase i)
  apart : ∀ i j, i ≠ j → Apart (w.phase i) (w.phase j)

omit [DecidableEq ι] in
theorem inv_initial (sessions : Table Session.id) :
    Inv cfg (initial sessions : World ι (SessionStore β) Phase) := by
  refine ⟨⟨?_, ?_, ?_⟩, fun _ => trivial, fun _ _ _ => apart_of_span rfl⟩
  · intro m m' hm
    cases hm.1
  · intro part idx r hr
    cases hr
  · intro m hm
    cases hm

/-- What a call's transaction has to show. -/
theorem Inv.write (h : Inv cfg w) {i : ι} {s : SessionStore β} {p : Phase}
    (hstore : StoreInv s cfg.sessionId) (hself : PhaseInv cfg.codec s cfg.sessionId p)
    (hothers : ∀ j, j ≠ i → PhaseInv cfg.codec s cfg.sessionId (w.phase j))
    (hapart : ∀ j, j ≠ i → Apart p (w.phase j)) : Inv cfg (w.write i s p) := by
  refine ⟨hstore, World.forall_write (Q := fun _ q => PhaseInv cfg.codec s cfg.sessionId q) hself
    hothers, ?_⟩
  exact World.forall_pair_write (R := fun j q k q' => j ≠ k → Apart q q')
    (fun hne => absurd rfl hne)
    (fun j hj => ⟨fun _ => hapart j hj, fun _ => (hapart j hj).symm⟩) h.apart

/-- A call that only moves on. -/
theorem Inv.move (h : Inv cfg w) {i : ι} {p : Phase}
    (hself : PhaseInv cfg.codec w.store cfg.sessionId p) (hspan : p.span = none) :
    Inv cfg (w.move i p) :=
  h.write h.store hself (fun j _ => h.phases j) fun _ _ => apart_of_span hspan

/-- A call reserves positions above all that were. -/
theorem Inv.reserve (h : Inv cfg w) {i : ι} {ids : List Text} {part : Int}
    {s : SessionStore β} (hids : ∀ askId ∈ ids, cfg.codec.Opened askId)
    (hup : Upserted cfg.sessionId asksPart
      (startOf (asksManifest w.store cfg.sessionId) + ids.length) part w.store s) :
    Inv cfg (w.write i s
        (.reserved ids (startOf (asksManifest w.store cfg.sessionId)) part)) ∧
      Extends cfg.sessionId w.store s := by
  have hresolved := hup.resolved
  obtain ⟨hstore, hext, hrecords, m, hm, hpart, hcount⟩ := hup.reserve h.store
  refine ⟨h.write hstore ⟨hids, m, hm, hpart, hcount.ge, ?_⟩ ?_ ?_, hext⟩
  · intro number _
    rw [hrecords]
    exact h.store.free_at hresolved _ (by omega)
  · intro j _
    refine (h.phases j).mono hext ?_
    intro a _ p _ idx _ _ hfree
    rwa [hrecords]
  · intro j hj a ha b hb
    cases ha
    cases hphase : w.phase j with
    | reserved ids' first' part' =>
        rw [hphase] at hb
        cases hb
        have hother := h.phases j
        rw [hphase] at hother
        obtain ⟨_, m', hm', _, hbound, _⟩ := hother
        rw [hm', startOf, Option.elim_some]
        exact Or.inr hbound
    | _ =>
        rw [hphase] at hb
        cases hb

/-- A call writes the positions it reserved. -/
theorem Inv.append (h : Inv cfg w) {i : ι} {ids : List Text} {first part : Int}
    {s : SessionStore β} (hreads : cfg.ReadsBack) (hphase : w.phase i = .reserved ids first part)
    (happended : Appended (cfg.codec.releases cfg.sessionId (cfg.call i) part first ids) false
      w.store s) :
    Inv cfg (w.write i s (.returned ids)) ∧ Extends cfg.sessionId w.store s := by
  have hmine := h.phases i
  rw [hphase] at hmine
  obtain ⟨hstore, hext, hreturned⟩ := released_of_append happended h.store hmine
    fun askId hopened => (hreads i askId hopened).1
  refine ⟨h.write hstore hreturned ?_ (fun _ _ => apart_of_span rfl), hext⟩
  intro j hj
  refine (h.phases j).mono hext ?_
  intro a ha p _ idx hle hlt hfree
  rw [Appended.other happended ?_]
  · exact hfree
  · intro number hnumber hkey
    have hidx : idx = first + number := congrArg RecordKey.idx hkey
    have hspans := h.apart i j (Ne.symm hj) (first, first + ids.length) (by rw [hphase]; rfl) a ha
    simp only at hspans
    omega

theorem Inv.step (h : Inv cfg w) (hreads : cfg.ReadsBack) (hfresh : a.Fresh cfg w)
    (hstep : step cfg w a = some w') :
    Inv cfg w' ∧ Extends cfg.sessionId w.store w'.store := by
  cases a with
  | release i =>
      obtain ⟨next, hnext, rfl⟩ := Option.map_eq_some_iff.mp hstep
      obtain ⟨s, p⟩ := next
      have hmine := h.phases i
      have hmanifest : (w.phase i).Fresh (asksManifest w.store cfg.sessionId) := hfresh
      have hadvance := advances_of_releaseStep hnext
      have hquiet : Extends cfg.sessionId w.store w.store := (Quiet.refl w.store).extends
      generalize hphase : w.phase i = before at hadvance hmine hmanifest
      cases hadvance with
      | list =>
          refine ⟨h.move ?_ ?_, hquiet⟩
          · split
            next => exact fun _ hid => by cases hid
            next => exact fun _ hid => opened_of_open hid
          · split <;> rfl
      | place ids => exact ⟨h.move hmine rfl, hquiet⟩
      | reserve hup =>
          have hsame : startOf _ = startOf (asksManifest w.store cfg.sessionId) := hmanifest
          rw [hsame] at hup ⊢
          exact h.reserve hmine hup
      | append happended => exact h.append hreads hphase happended
      | skip first part => exact ⟨h.move (fun _ hid => by cases hid) rfl, hquiet⟩
      | refuse e => exact ⟨h.move (phaseInv_refused e) (span_refused e), hquiet⟩
  | crash i =>
      rw [Asks.step] at hstep
      split at hstep
      next =>
        cases hstep
        exact ⟨h.move trivial rfl, (Quiet.refl _).extends⟩
      next => cases hstep
  | write op =>
      rw [Asks.step] at hstep
      split at hstep
      next hspares =>
        cases hstep
        obtain ⟨hstore, hquiet⟩ := Spares.quiet cfg.bodies cfg.shardOf hspares h.store
        refine ⟨⟨hstore, ?_, h.apart⟩, hquiet.extends⟩
        intro j
        refine (h.phases j).mono hquiet.extends ?_
        rintro a _ part ⟨m, hm, rfl⟩ idx _ _ hfree
        exact (hquiet.free m hm idx).mpr hfree
      next => cases hstep

theorem Inv.run (hreads : cfg.ReadsBack) {trace : List (Act ι)} (h : Inv cfg w)
    (hfresh : Trace.Along (Asks.step cfg) (fun w a => a.Fresh cfg w) w trace)
    (hrun : Trace.run (Asks.step cfg) w trace = some w') :
    Inv cfg w' ∧ Extends cfg.sessionId w.store w'.store := by
  have hquiet : Extends cfg.sessionId w.store w.store := (Quiet.refl w.store).extends
  refine Trace.run_keeps_along (I := fun _ u => Inv cfg u ∧ Extends cfg.sessionId w.store u.store)
    ⟨h, hquiet⟩ ?_ hfresh hrun
  rintro _ u a u' ⟨hinv, hext⟩ hfresh hstep
  obtain ⟨hinv', hext'⟩ := hinv.step hreads hfresh hstep
  exact ⟨hinv', hext.trans hext'⟩

end Runs

end Trackinizer.Asks
