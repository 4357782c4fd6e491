import Mathlib.Data.List.Find
import Mathlib.Data.List.Pairwise
import Trackinizer.SessionCoherence

namespace Trackinizer.Forks

open Keyed Transact

/-- `PartPrefix`: a part, and how many of its first records are copied. -/
structure PartPrefix where
  part : Int
  records : Nat

section Copies

variable {ρ : Type} (key : ρ → RecordKey) (rekey : RecordKey → ρ → ρ)

/-- One prefix's share of a join with `copied(part, records, into_part)`. -/
def copiedPart (source target : UUID) (rows : List ρ) (copy : PartPrefix × Nat) : List ρ :=
  (rows.filter fun r => decide ((key r).sessionId = source ∧ (key r).part = copy.1.part ∧
    (key r).idx < copy.1.records)).map fun r => rekey ⟨target, copy.2, (key r).idx⟩ r

/-- The rows that a copy of one table's rows inserts. -/
def copiedRows (source target : UUID) (prefixes : List PartPrefix) (rows : List ρ) : List ρ :=
  prefixes.zipIdx.flatMap (copiedPart key rekey source target rows)

end Copies

def rekeyRecord (k : RecordKey) (r : StoredRecord) : StoredRecord := { r with toRecordKey := k }

def rekeyCiphertext (k : RecordKey) (c : StoredCiphertext) : StoredCiphertext :=
  { c with toRecordKey := k }

section Operations

variable {β : Type}

def rekeyBody (k : RecordKey) (b : StoredBody β) : StoredBody β := { b with toRecordKey := k }

/-- The manifests that a copy inserts: a part's own, under its new number and bound. -/
def copiedManifests (source target : UUID) (prefixes : List PartPrefix) (apiKeyId : Option UUID)
    (rows : List SessionManifest) : List SessionManifest :=
  prefixes.zipIdx.flatMap fun copy =>
    (rows.filter fun m => decide (m.sessionId = source ∧ m.part = copy.1.part)).map fun m =>
      { m with
        sessionId := target
        part := copy.2
        records := copy.1.records
        openedByApiKeyId := apiKeyId }

/-- `UNIQUE (session_id, name)`. -/
def namesUnique (manifests : List SessionManifest) : Bool :=
  decide (manifests.Pairwise fun m m' => ¬ (m.sessionId = m'.sessionId ∧ m.name = m'.name))

/-- `FOREIGN KEY (session_id)`: each row's session is there. -/
def ensureSessions (sessionIds : List UUID) : SessionM β Unit := do
  let s ← get
  ensure (∀ id ∈ sessionIds, (s.sessions.find? id).isSome) .foreignKeyViolation

def copyManifests (source target : UUID) (prefixes : List PartPrefix) (apiKeyId : Option UUID) :
    SessionM β Unit := do
  let s ← get
  let rows := copiedManifests source target prefixes apiKeyId s.manifests.rows
  ensure (∀ m ∈ rows, 0 ≤ m.records) (.checkViolation "session_manifests")
  let manifests ← orThrow (s.manifests.insertAll? rows) .uniqueViolation
  ensure (namesUnique manifests.rows = true) .uniqueViolation
  ensureSessions (rows.map fun m => m.sessionId)
  set { s with manifests := manifests }

/-- The `CHECK` clauses of `session_records`, of a stored row. -/
def recordChecks (r : StoredRecord) : Bool :=
  decide (0 ≤ r.idx) && r.contextId.all fun c => decide (c ≤ r.idx)

def copyRecords (source target : UUID) (prefixes : List PartPrefix) : SessionM β Unit := do
  let s ← get
  let rows := copiedRows StoredRecord.toRecordKey rekeyRecord source target prefixes s.records.rows
  ensure (rows.all recordChecks = true) (.checkViolation "session_records")
  let records ← orThrow (s.records.insertAll? rows) .uniqueViolation
  ensureSessions (rows.map fun r => r.sessionId)
  set { s with records := records }

def copyCiphertext (source target : UUID) (prefixes : List PartPrefix) : SessionM β Unit := do
  let s ← get
  let rows := copiedRows StoredCiphertext.toRecordKey rekeyCiphertext source target prefixes
    s.ciphertext.rows
  ensure (∀ c ∈ rows, 0 ≤ c.idx) (.checkViolation "session_ciphertext")
  let ciphertext ← orThrow (s.ciphertext.insertAll? rows) .uniqueViolation
  ensureSessions (rows.map fun c => c.sessionId)
  set { s with ciphertext := ciphertext }

def copyBodies (source target : UUID) (prefixes : List PartPrefix) : SessionM β Unit := do
  let s ← get
  let rows := copiedRows StoredBody.toRecordKey rekeyBody source target prefixes s.bodies.rows
  let bodies ← orThrow (s.bodies.insertAll? rows) .uniqueViolation
  ensureSessions (rows.map fun b => b.sessionId)
  set { s with bodies := bodies }

/-- `copy_session_parts`. -/
def copySessionParts (source target : UUID) (prefixes : List PartPrefix)
    (apiKeyId : Option UUID) : SessionM β Unit := do
  copyManifests source target prefixes apiKeyId
  copyRecords source target prefixes
  copyCiphertext source target prefixes
  copyBodies source target prefixes

end Operations

section CopyFacts

variable {ρ : Type} {key : ρ → RecordKey} {rekey : RecordKey → ρ → ρ} {source target : UUID}
  {prefixes : List PartPrefix}

/-- Only one place of a list contributes to a concatenation. -/
theorem flatMap_zipIdx_single {α γ : Type} {f : α × Nat → List γ} {xs : List α} {n i : Nat} {a : α}
    (ha : xs[i]? = some a) (hother : ∀ c ∈ xs.zipIdx n, c.2 ≠ n + i → f c = []) :
    (xs.zipIdx n).flatMap f = f (a, n + i) := by
  induction xs generalizing n i with
  | nil => cases ha
  | cons x xs ih =>
      rw [List.zipIdx_cons, List.flatMap_cons]
      cases i with
      | zero =>
          have hx : x = a := by simpa using ha
          have hrest : (xs.zipIdx (n + 1)).flatMap f = [] := by
            rw [List.flatMap_eq_nil_iff]
            intro c hc
            have hge := List.le_snd_of_mem_zipIdx hc
            exact hother c (List.mem_cons_of_mem _ hc) (by omega)
          rw [hrest, List.append_nil, hx, Nat.add_zero]
      | succ i =>
          have hfirst : f (x, n) = [] := hother (x, n) List.mem_cons_self (by
            show n ≠ n + (i + 1)
            omega)
          have hnext : n + 1 + i = n + (i + 1) := by omega
          rw [hfirst, List.nil_append, ih (n := n + 1) (i := i) (by simpa using ha), hnext]
          intro c hc hne
          exact hother c (List.mem_cons_of_mem _ hc) (by omega)

theorem mem_copiedPart {rows : List ρ} {copy : PartPrefix × Nat} {r' : ρ} :
    r' ∈ copiedPart key rekey source target rows copy ↔
      ∃ r ∈ rows, ((key r).sessionId = source ∧ (key r).part = copy.1.part ∧
        (key r).idx < copy.1.records) ∧ rekey ⟨target, copy.2, (key r).idx⟩ r = r' := by
  simp only [copiedPart, List.mem_map, List.mem_filter, decide_eq_true_eq, and_assoc]

theorem mem_copiedRows {rows : List ρ} {r' : ρ}
    (h : r' ∈ copiedRows key rekey source target prefixes rows) :
    ∃ copy ∈ prefixes.zipIdx, ∃ r ∈ rows, ((key r).sessionId = source ∧
      (key r).part = copy.1.part ∧ (key r).idx < copy.1.records) ∧
        rekey ⟨target, copy.2, (key r).idx⟩ r = r' := by
  obtain ⟨copy, hcopy, hr'⟩ := List.mem_flatMap.mp h
  exact ⟨copy, hcopy, mem_copiedPart.mp hr'⟩

/-- The places of a list differ. -/
theorem zipIdx_pairwise {α : Type} (xs : List α) :
    xs.zipIdx.Pairwise fun a b => a.2 ≠ b.2 := by
  have hnodup : (xs.zipIdx.map Prod.snd).Nodup := by
    rw [List.zipIdx_map_snd]
    exact List.nodup_range'
  exact List.pairwise_map.mp hnodup

variable (hkey : ∀ k r, key (rekey k r) = k)
include hkey

theorem copied_sessionId {rows : List ρ} {r : ρ}
    (h : r ∈ copiedRows key rekey source target prefixes rows) : (key r).sessionId = target := by
  obtain ⟨copy, _, old, _, _, rfl⟩ := mem_copiedRows h
  rw [hkey]

/-- The copies' keys are distinct: parts of the copy by their numbers, records by position. -/
theorem copied_keys_nodup (t : Table key) :
    ((copiedRows key rekey source target prefixes t.rows).map key).Nodup := by
  rw [List.Nodup, List.pairwise_map, copiedRows, List.pairwise_flatMap]
  constructor
  · intro copy _
    rw [copiedPart, List.pairwise_map]
    have hkeys : t.rows.Pairwise fun a b => key a ≠ key b := List.pairwise_map.mp t.keys_nodup
    refine (hkeys.filter _).imp_of_mem ?_
    intro a b ha hb hne heq
    rw [hkey, hkey] at heq
    obtain ⟨_, _, hidx⟩ := RecordKey.mk.inj heq
    rw [List.mem_filter, decide_eq_true_eq] at ha hb
    obtain ⟨_, hasession, hapart, _⟩ := ha
    obtain ⟨_, hbsession, hbpart, _⟩ := hb
    apply hne
    rw [RecordKey.mk.injEq]
    exact ⟨hasession.trans hbsession.symm, hapart.trans hbpart.symm, hidx⟩
  · refine (zipIdx_pairwise prefixes).imp ?_
    intro c d hcd a ha b hb heq
    obtain ⟨_, _, _, rfl⟩ := mem_copiedPart.mp ha
    obtain ⟨_, _, _, rfl⟩ := mem_copiedPart.mp hb
    rw [hkey, hkey] at heq
    obtain ⟨_, hpart, _⟩ := RecordKey.mk.inj heq
    exact hcd (by omega)

/-- The key of a target part's record. -/
def inPart (target : UUID) (i : Nat) (k : RecordKey) : Bool :=
  decide (k.sessionId = target ∧ k.part = i)

/-- The key of a record of a prefix. -/
def inPrefix (source : UUID) (p : PartPrefix) (k : RecordKey) : Bool :=
  decide (k.sessionId = source ∧ k.part = p.part ∧ k.idx < p.records)

variable {t t' : Table key} {i : Nat} {p : PartPrefix}

/-- A target part holds the copies of its prefix, in the order of the originals. -/
theorem share_copied
    (hrows : t'.rows = t.rows ++ copiedRows key rekey source target prefixes t.rows)
    (hnew : ∀ r ∈ t.rows, (key r).sessionId ≠ target) (hp : prefixes[i]? = some p) :
    t'.share (inPart target i) =
      (t.share (inPrefix source p)).map fun r => rekey ⟨target, i, (key r).idx⟩ r := by
  have hold : t.rows.filter (fun r => inPart target i (key r)) = [] := by
    rw [List.filter_eq_nil_iff]
    intro r hr
    rw [inPart, decide_eq_true_eq]
    exact fun h => hnew r hr h.1
  have hcopies : (copiedRows key rekey source target prefixes t.rows).filter
      (fun r => inPart target i (key r)) = copiedPart key rekey source target t.rows (p, i) := by
    rw [copiedRows, List.filter_flatMap]
    have hone := flatMap_zipIdx_single (n := 0) (f := fun copy =>
      (copiedPart key rekey source target t.rows copy).filter fun r => inPart target i (key r)) hp
    rw [Nat.zero_add] at hone
    rw [hone]
    · rw [List.filter_eq_self]
      intro r hr
      obtain ⟨_, _, _, rfl⟩ := mem_copiedPart.mp hr
      rw [hkey]
      exact decide_eq_true ⟨rfl, rfl⟩
    · intro copy _ hne
      rw [List.filter_eq_nil_iff]
      intro r hr
      obtain ⟨_, _, _, rfl⟩ := mem_copiedPart.mp hr
      rw [hkey, inPart, decide_eq_true_eq]
      rintro ⟨_, hpart⟩
      exact hne (by
        have hcast : (copy.2 : Int) = i := hpart
        omega)
  rw [Table.share, hrows, List.filter_append, hold, List.nil_append, hcopies, copiedPart]
  rfl

/-- A copy is found where its original was, in its part of the copy. -/
theorem find?_copied
    (hrows : t'.rows = t.rows ++ copiedRows key rekey source target prefixes t.rows)
    (hnew : ∀ r ∈ t.rows, (key r).sessionId ≠ target) (hp : prefixes[i]? = some p) {idx : Int}
    (hidx : idx < p.records) :
    t'.find? ⟨target, i, idx⟩ = (t.find? ⟨source, p.part, idx⟩).map (rekey ⟨target, i, idx⟩) := by
  have hin : inPart target i ⟨target, i, idx⟩ = true := decide_eq_true ⟨rfl, rfl⟩
  have hout : inPrefix source p ⟨source, p.part, idx⟩ = true := decide_eq_true ⟨rfl, rfl, hidx⟩
  rw [Table.find?_share hin, Table.find?_share hout, share_copied hkey hrows hnew hp, List.find?_map]
  have hsame : ∀ r ∈ t.share (inPrefix source p),
      ((fun r => decide (key r = ⟨target, i, idx⟩)) ∘ fun r => rekey ⟨target, i, (key r).idx⟩ r) r =
        decide (key r = ⟨source, p.part, idx⟩) := by
    intro r hr
    obtain ⟨hsession, hpart, _⟩ := of_decide_eq_true (List.mem_filter.mp hr).2
    rw [Function.comp_apply, hkey, decide_eq_decide, RecordKey.mk.injEq]
    constructor
    · rintro ⟨_, _, rfl⟩
      rw [← hsession, ← hpart]
    · intro h
      exact ⟨rfl, rfl, congrArg RecordKey.idx h⟩
  rw [List.find?_congr hsame]
  cases hfind : (t.share (inPrefix source p)).find? fun r =>
      decide (key r = ⟨source, p.part, idx⟩) with
  | none => rfl
  | some r =>
      have hr : key r = ⟨source, p.part, idx⟩ := by simpa using List.find?_some hfind
      rw [Option.map_some, Option.map_some, hr]

end CopyFacts

section CopyRuns

variable {β : Type} {source target : UUID} {prefixes : List PartPrefix} {apiKeyId : Option UUID}

/-- What the tables' constraints keep true of the rows, whatever wrote them. -/
structure Constrained (s : SessionStore β) : Prop where
  records : ∀ r ∈ s.records.rows, recordChecks r = true
  ciphertext : ∀ c ∈ s.ciphertext.rows, 0 ≤ c.idx
  names : namesUnique s.manifests.rows = true

/-- A session that is there and holds no part yet. -/
structure PartFree (s : SessionStore β) (target : UUID) : Prop where
  session : (s.sessions.find? target).isSome = true
  manifests : ∀ m ∈ s.manifests.rows, m.sessionId ≠ target
  records : ∀ r ∈ s.records.rows, r.sessionId ≠ target
  ciphertext : ∀ c ∈ s.ciphertext.rows, c.sessionId ≠ target
  bodies : ∀ b ∈ s.bodies.rows, b.sessionId ≠ target

/-- Each prefix is of a part of its own, and no longer than the part's manifest says. -/
structure Prefixes (s : SessionStore β) (source : UUID) (prefixes : List PartPrefix) : Prop where
  distinct : (prefixes.map PartPrefix.part).Nodup
  within : ∀ p ∈ prefixes, ∃ m, s.manifests.find? ⟨source, p.part⟩ = some m ∧ p.records ≤ m.records

/-- What a copy leaves: each table with the copies of its rows behind its own. -/
structure CopiedInto (source target : UUID) (prefixes : List PartPrefix) (apiKeyId : Option UUID)
    (s s' : SessionStore β) : Prop where
  sessions : s'.sessions = s.sessions
  manifests : s'.manifests.rows = s.manifests.rows ++
    copiedManifests source target prefixes apiKeyId s.manifests.rows
  records : s'.records.rows = s.records.rows ++
    copiedRows StoredRecord.toRecordKey rekeyRecord source target prefixes s.records.rows
  ciphertext : s'.ciphertext.rows = s.ciphertext.rows ++
    copiedRows StoredCiphertext.toRecordKey rekeyCiphertext source target prefixes s.ciphertext.rows
  bodies : s'.bodies.rows = s.bodies.rows ++
    copiedRows StoredBody.toRecordKey rekeyBody source target prefixes s.bodies.rows

theorem mem_copiedManifests {rows : List SessionManifest} {m' : SessionManifest} :
    m' ∈ copiedManifests source target prefixes apiKeyId rows ↔
      ∃ copy ∈ prefixes.zipIdx, ∃ m ∈ rows, (m.sessionId = source ∧ m.part = copy.1.part) ∧
        { m with
          sessionId := target
          part := copy.2
          records := copy.1.records
          openedByApiKeyId := apiKeyId } = m' := by
  simp only [copiedManifests, List.mem_flatMap, List.mem_map, List.mem_filter, decide_eq_true_eq,
    and_assoc]

/-- The parts of two places of a list of distinct prefixes differ. -/
theorem parts_pairwise (h : (prefixes.map PartPrefix.part).Nodup) :
    prefixes.zipIdx.Pairwise fun a b => a.1.part ≠ b.1.part := by
  have hparts : prefixes.Pairwise fun p q => p.part ≠ q.part := List.pairwise_map.mp h
  have hplaces : (prefixes.zipIdx.map Prod.fst).Pairwise fun p q => p.part ≠ q.part := by
    rw [List.zipIdx_map_fst]
    exact hparts
  exact (List.pairwise_map (f := Prod.fst)).mp hplaces

/-- Two copies of one manifest are not of one part of the source. -/
theorem copiedManifests_pairwise {R : SessionManifest → SessionManifest → Prop}
    (t : Table SessionManifest.toPartKey)
    (hR : ∀ c ∈ prefixes.zipIdx, ∀ d ∈ prefixes.zipIdx, c.2 ≠ d.2 → c.1.part ≠ d.1.part →
      ∀ m ∈ t.rows, m.sessionId = source → m.part = c.1.part →
      ∀ m' ∈ t.rows, m'.sessionId = source → m'.part = d.1.part →
      R { m with
          sessionId := target
          part := c.2
          records := c.1.records
          openedByApiKeyId := apiKeyId }
        { m' with
          sessionId := target
          part := d.2
          records := d.1.records
          openedByApiKeyId := apiKeyId })
    (hdistinct : (prefixes.map PartPrefix.part).Nodup) :
    (copiedManifests source target prefixes apiKeyId t.rows).Pairwise R := by
  rw [copiedManifests, List.pairwise_flatMap]
  constructor
  · intro copy _
    rw [List.pairwise_map]
    have hkeys : t.rows.Pairwise fun a b => a.toPartKey ≠ b.toPartKey :=
      List.pairwise_map.mp t.keys_nodup
    refine (hkeys.filter _).imp_of_mem ?_
    intro a b ha hb hne
    rw [List.mem_filter, decide_eq_true_eq] at ha hb
    obtain ⟨_, hasession, hapart⟩ := ha
    obtain ⟨_, hbsession, hbpart⟩ := hb
    have heq : a.toPartKey = b.toPartKey := by
      rw [PartKey.mk.injEq]
      exact ⟨hasession.trans hbsession.symm, hapart.trans hbpart.symm⟩
    exact absurd heq hne
  · have hboth := (zipIdx_pairwise prefixes).and (parts_pairwise hdistinct)
    refine hboth.imp_of_mem ?_
    intro c d hc hd hcd x hx y hy
    obtain ⟨m, hm, rfl⟩ := List.mem_map.mp hx
    obtain ⟨m', hm', rfl⟩ := List.mem_map.mp hy
    rw [List.mem_filter, decide_eq_true_eq] at hm hm'
    exact hR c hc d hd hcd.1 hcd.2 m hm.1 hm.2.1 hm.2.2 m' hm'.1 hm'.2.1 hm'.2.2

/-- The manifests of the copy: one a number, and no name twice in a session. -/
theorem exists_manifests {s : SessionStore β} (hs : Constrained s) (hfree : PartFree s target)
    (hprefixes : (prefixes.map PartPrefix.part).Nodup) :
    ∃ manifests, s.manifests.insertAll?
        (copiedManifests source target prefixes apiKeyId s.manifests.rows) = some manifests ∧
      namesUnique manifests.rows = true := by
  have hkeys : ((copiedManifests source target prefixes apiKeyId s.manifests.rows).map
      SessionManifest.toPartKey).Nodup := by
    rw [List.Nodup, List.pairwise_map]
    refine copiedManifests_pairwise s.manifests ?_ hprefixes
    intro c _ d _ hcd _ m _ _ _ m' _ _ _ heq
    obtain ⟨_, hpart⟩ := PartKey.mk.inj heq
    exact hcd (by omega)
  have hnew : ∀ m ∈ copiedManifests source target prefixes apiKeyId s.manifests.rows,
      ∀ m' ∈ s.manifests.rows, m'.toPartKey ≠ m.toPartKey := by
    intro m hm m' hm' heq
    obtain ⟨_, _, _, _, _, rfl⟩ := mem_copiedManifests.mp hm
    exact hfree.manifests m' hm' (congrArg PartKey.sessionId heq)
  obtain ⟨manifests, hinsert, hrows⟩ := Table.exists_insertAll? hkeys hnew
  refine ⟨manifests, hinsert, ?_⟩
  have hold := of_decide_eq_true hs.names
  rw [namesUnique, decide_eq_true_eq, hrows, List.pairwise_append]
  refine ⟨hold, ?_, ?_⟩
  · refine copiedManifests_pairwise s.manifests ?_ hprefixes
    intro c _ d _ _ hparts m hm hsession hpart m' hm' hsession' hpart' hname
    -- two parts of the source under one name
    have hsymm : Std.Symm fun x y : SessionManifest =>
        ¬ (x.sessionId = y.sessionId ∧ x.name = y.name) :=
      ⟨fun x y hxy hyx => hxy ⟨hyx.1.symm, hyx.2.symm⟩⟩
    refine hold.forall hm hm' ?_ ⟨hsession.trans hsession'.symm, hname.2⟩
    rintro rfl
    exact hparts (hpart.symm.trans hpart')
  · intro m hm m' hm' hname
    obtain ⟨_, _, _, _, _, rfl⟩ := mem_copiedManifests.mp hm'
    exact hfree.manifests m hm hname.1

theorem copyManifests_ok {s : SessionStore β} (hs : Constrained s) (hfree : PartFree s target)
    (hprefixes : (prefixes.map PartPrefix.part).Nodup) :
    ∃ manifests, copyManifests source target prefixes apiKeyId s =
      .ok ((), { s with manifests := manifests }) := by
  obtain ⟨manifests, hinsert, hnames⟩ :=
    @exists_manifests β source target prefixes apiKeyId s hs hfree hprefixes
  refine ⟨manifests, ?_⟩
  have hchecks : ∀ m ∈ copiedManifests source target prefixes apiKeyId s.manifests.rows,
      0 ≤ m.records := by
    intro m hm
    obtain ⟨copy, _, _, _, _, rfl⟩ := mem_copiedManifests.mp hm
    exact Int.natCast_nonneg copy.1.records
  have hsessions : ∀ id ∈ (copiedManifests source target prefixes apiKeyId s.manifests.rows).map
      (fun m => m.sessionId), (s.sessions.find? id).isSome := by
    intro id hid
    obtain ⟨m, hm, rfl⟩ := List.mem_map.mp hid
    obtain ⟨_, _, _, _, _, rfl⟩ := mem_copiedManifests.mp hm
    exact hfree.session
  rw [copyManifests, get_bind_ok, ensure_bind_ok]
  refine ⟨hchecks, ?_⟩
  rw [orThrow_bind_ok]
  refine ⟨manifests, hinsert, ?_⟩
  rw [ensure_bind_ok]
  refine ⟨hnames, ?_⟩
  rw [ensureSessions, bind_assoc, get_bind_ok, ensure_bind_ok]
  exact ⟨hsessions, rfl⟩

section Rows

variable {ρ : Type} {key : ρ → RecordKey} {rekey : RecordKey → ρ → ρ} {s : SessionStore β}

/-- One table's copies go in, and the sessions they name are there. -/
theorem exists_copies (hkey : ∀ k r, key (rekey k r) = k) (t : Table key)
    (hnew : ∀ r ∈ t.rows, (key r).sessionId ≠ target)
    (hsession : (s.sessions.find? target).isSome = true) :
    ∃ t', t.insertAll? (copiedRows key rekey source target prefixes t.rows) = some t' ∧
      ∀ id ∈ (copiedRows key rekey source target prefixes t.rows).map (fun r => (key r).sessionId),
        (s.sessions.find? id).isSome := by
  have hfresh : ∀ r ∈ copiedRows key rekey source target prefixes t.rows, ∀ r' ∈ t.rows,
      key r' ≠ key r := by
    intro r hr r' hr' heq
    exact hnew r' hr' ((congrArg RecordKey.sessionId heq).trans (copied_sessionId hkey hr))
  obtain ⟨t', hinsert, _⟩ := Table.exists_insertAll? (copied_keys_nodup hkey t) hfresh
  refine ⟨t', hinsert, ?_⟩
  intro id hid
  obtain ⟨r, hr, rfl⟩ := List.mem_map.mp hid
  rw [copied_sessionId hkey hr]
  exact hsession

end Rows

theorem copyRecords_ok {s : SessionStore β} (hs : ∀ r ∈ s.records.rows, recordChecks r = true)
    (hnew : ∀ r ∈ s.records.rows, r.sessionId ≠ target)
    (hsession : (s.sessions.find? target).isSome = true) :
    ∃ records, copyRecords source target prefixes s = .ok ((), { s with records := records }) := by
  obtain ⟨records, hinsert, hsessions⟩ :=
    @exists_copies β source target prefixes _ _ rekeyRecord s (fun _ _ => rfl) s.records hnew hsession
  refine ⟨records, ?_⟩
  have hchecks : (copiedRows StoredRecord.toRecordKey rekeyRecord source target prefixes
      s.records.rows).all recordChecks = true := by
    rw [List.all_eq_true]
    intro r hr
    obtain ⟨_, _, old, hold, _, rfl⟩ := mem_copiedRows hr
    exact hs old hold
  rw [copyRecords, get_bind_ok, ensure_bind_ok]
  refine ⟨hchecks, ?_⟩
  rw [orThrow_bind_ok]
  refine ⟨records, hinsert, ?_⟩
  rw [ensureSessions, bind_assoc, get_bind_ok, ensure_bind_ok]
  exact ⟨hsessions, rfl⟩

theorem copyCiphertext_ok {s : SessionStore β} (hs : ∀ c ∈ s.ciphertext.rows, 0 ≤ c.idx)
    (hnew : ∀ c ∈ s.ciphertext.rows, c.sessionId ≠ target)
    (hsession : (s.sessions.find? target).isSome = true) :
    ∃ ciphertext, copyCiphertext source target prefixes s =
      .ok ((), { s with ciphertext := ciphertext }) := by
  obtain ⟨ciphertext, hinsert, hsessions⟩ :=
    @exists_copies β source target prefixes _ _ rekeyCiphertext s (fun _ _ => rfl) s.ciphertext hnew
      hsession
  refine ⟨ciphertext, ?_⟩
  have hchecks : ∀ c ∈ copiedRows StoredCiphertext.toRecordKey rekeyCiphertext source target
      prefixes s.ciphertext.rows, 0 ≤ c.idx := by
    intro c hc
    obtain ⟨_, _, old, hold, _, rfl⟩ := mem_copiedRows hc
    exact hs old hold
  rw [copyCiphertext, get_bind_ok, ensure_bind_ok]
  refine ⟨hchecks, ?_⟩
  rw [orThrow_bind_ok]
  refine ⟨ciphertext, hinsert, ?_⟩
  rw [ensureSessions, bind_assoc, get_bind_ok, ensure_bind_ok]
  exact ⟨hsessions, rfl⟩

theorem copyBodies_ok {s : SessionStore β} (hnew : ∀ b ∈ s.bodies.rows, b.sessionId ≠ target)
    (hsession : (s.sessions.find? target).isSome = true) :
    ∃ bodies, copyBodies source target prefixes s = .ok ((), { s with bodies := bodies }) := by
  obtain ⟨bodies, hinsert, hsessions⟩ :=
    @exists_copies β source target prefixes _ _ rekeyBody s (fun _ _ => rfl) s.bodies hnew hsession
  refine ⟨bodies, ?_⟩
  rw [copyBodies, get_bind_ok, orThrow_bind_ok]
  refine ⟨bodies, hinsert, ?_⟩
  rw [ensureSessions, bind_assoc, get_bind_ok, ensure_bind_ok]
  exact ⟨hsessions, rfl⟩

/-- A copy of distinct parts into a session without parts goes through. -/
theorem copySessionParts_ok {s : SessionStore β} (hs : Constrained s) (hfree : PartFree s target)
    (hprefixes : (prefixes.map PartPrefix.part).Nodup) :
    ∃ s', copySessionParts source target prefixes apiKeyId s = .ok ((), s') := by
  obtain ⟨manifests, hmanifests⟩ :=
    @copyManifests_ok β source target prefixes apiKeyId s hs hfree hprefixes
  obtain ⟨records, hrecords⟩ := @copyRecords_ok β source target prefixes
    { s with manifests := manifests } hs.records hfree.records hfree.session
  obtain ⟨ciphertext, hciphertext⟩ := @copyCiphertext_ok β source target prefixes
    { s with manifests := manifests, records := records } hs.ciphertext hfree.ciphertext
    hfree.session
  obtain ⟨bodies, hbodies⟩ := @copyBodies_ok β source target prefixes
    { s with manifests := manifests, records := records, ciphertext := ciphertext } hfree.bodies
    hfree.session
  refine ⟨{ s with
    manifests := manifests
    records := records
    ciphertext := ciphertext
    bodies := bodies }, ?_⟩
  rw [copySessionParts, bind_run hmanifests, bind_run hrecords, bind_run hciphertext]
  exact hbodies

/-- A copy that goes through leaves each table with the copies behind its own rows. -/
theorem copySessionParts_spec {s s' : SessionStore β}
    (h : copySessionParts source target prefixes apiKeyId s = .ok ((), s')) :
    CopiedInto source target prefixes apiKeyId s s' := by
  rw [copySessionParts] at h
  obtain ⟨_, s₁, hmanifests, h⟩ := bind_ok.mp h
  obtain ⟨_, s₂, hrecords, h⟩ := bind_ok.mp h
  obtain ⟨_, s₃, hciphertext, hbodies⟩ := bind_ok.mp h
  rw [copyManifests, get_bind_ok, ensure_bind_ok, orThrow_bind_ok] at hmanifests
  obtain ⟨_, manifests, hm, hmanifests⟩ := hmanifests
  rw [ensure_bind_ok, ensureSessions, bind_assoc, get_bind_ok, ensure_bind_ok] at hmanifests
  obtain ⟨_, _, hset⟩ := hmanifests
  cases hset
  rw [copyRecords, get_bind_ok, ensure_bind_ok, orThrow_bind_ok] at hrecords
  obtain ⟨_, records, hr, hrecords⟩ := hrecords
  rw [ensureSessions, bind_assoc, get_bind_ok, ensure_bind_ok] at hrecords
  obtain ⟨_, hset⟩ := hrecords
  cases hset
  rw [copyCiphertext, get_bind_ok, ensure_bind_ok, orThrow_bind_ok] at hciphertext
  obtain ⟨_, ciphertext, hc, hciphertext⟩ := hciphertext
  rw [ensureSessions, bind_assoc, get_bind_ok, ensure_bind_ok] at hciphertext
  obtain ⟨_, hset⟩ := hciphertext
  cases hset
  rw [copyBodies, get_bind_ok, orThrow_bind_ok] at hbodies
  obtain ⟨bodies, hb, hbodies⟩ := hbodies
  rw [ensureSessions, bind_assoc, get_bind_ok, ensure_bind_ok] at hbodies
  obtain ⟨_, hset⟩ := hbodies
  cases hset
  exact ⟨rfl, Table.insertAll?_eq_some.mp hm, Table.insertAll?_eq_some.mp hr,
    Table.insertAll?_eq_some.mp hc, Table.insertAll?_eq_some.mp hb⟩

end CopyRuns

end Trackinizer.Forks
