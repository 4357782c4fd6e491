import Mathlib.Data.List.Forall2
import Trackinizer.SessionCoherence

namespace Trackinizer

open Keyed Transact

section Reads

variable {β : Type} {codec : BodyCodec β} {shardOf : UUID → Nat}
  {jsonLoads : Text → Except StoreError PlainTree}

/-- A captured row as a reader gets it back, every NUL in it replaced. -/
def CapturedRow.nulFreed (w : CapturedRow) : SessionRecordRow :=
  { toRecordKey := w.key
    kind := nulFree w.kind
    contextId := w.contextId
    timestamp := w.timestamp
    model := w.model.map nulFree
    payload := dictOf (nulFreeEntries w.payload)
    text := nulFree w.text
    ciphertext := w.ciphertext }

/-- The reader's JSON library reads back the payloads the writer's wrote. -/
def ReadsBack (jsonLoads : Text → Except StoreError PlainTree) (latest : SessionLog) : Prop :=
  ∀ k w, latest.find? k = some w →
    jsonLoads (dumps (nulFreeTree (.dict w.payload))) = .ok (nulFreeTree (.dict w.payload))

/-- The indices of a part's live prefix past an index. -/
def livePrefix (m : SessionManifest) (afterIdx : Int) : List Nat :=
  (List.range m.records.toNat).filter fun (i : Nat) => decide (afterIdx < (i : Int))

def SessionManifest.keyAt (m : SessionManifest) (i : Nat) : RecordKey :=
  { sessionId := m.sessionId, part := m.part, idx := (i : Int) }

/-- The remembered rows of a part's live prefix past an index, in order. -/
def expectedRows (latest : SessionLog) (m : SessionManifest) (afterIdx : Int) :
    List CapturedRow :=
  (livePrefix m afterIdx).filterMap fun i => latest.find? (m.keyAt i)

def expectedRead (s : SessionStore β) (latest : SessionLog) (sessionId : UUID) (part : Int)
    (afterIdx : Int) (limit : Nat) : List SessionRecordRow :=
  match s.manifests.find? ⟨sessionId, part⟩ with
  | none => []
  | some m => ((expectedRows latest m afterIdx).take limit).map CapturedRow.nulFreed

/-- A shown row is served whole, from the hot row or from its body. -/
theorem Shows.served {s : SessionStore β} {w : CapturedRow} {r : StoredRecord}
    (h : Shows codec (s.slots w.key) w r)
    (hloads : jsonLoads (dumps (nulFreeTree (.dict w.payload))) =
      .ok (nulFreeTree (.dict w.payload))) :
    servedRecord codec jsonLoads s false r = .ok w.nulFreed := by
  have hpayload : splicedPayload codec r.payload
      ((s.bodies.find? w.key).map fun b => b.payloadZst) =
        .ok (dumps (nulFreeTree (.dict w.payload))) := by
    rw [← encodedPayload_eq w.unique]
    rcases h.payload with ⟨hsame, hhot, _⟩ | ⟨hstub, body, hbody, hdecode⟩
    · unfold splicedPayload
      rw [if_pos hhot, hsame]
    · have hfind : s.bodies.find? w.key = some body := hbody
      unfold splicedPayload
      rw [if_neg (by simpa using hstub), hfind]
      exact hdecode
  have htext : splicedText codec r.text ((s.bodies.find? w.key).map fun b => b.textZst) =
      .ok (nulFree w.text) := h.text
  have hsealed : (s.ciphertext.find? w.key).map (fun c => c.bytes) = w.ciphertext := h.sealed
  have hdecoded : decodedPayload jsonLoads (dumps (nulFreeTree (.dict w.payload))) =
      .ok (dictOf (nulFreeEntries w.payload)) := by
    rw [decodedPayload, hloads, nulFreeTree]
    rfl
  unfold servedRecord
  rw [h.key]
  simp only [Bool.false_eq_true, if_false, hpayload, htext]
  show (decodedPayload jsonLoads (dumps (nulFreeTree (.dict w.payload)))).bind _ = _
  rw [hdecoded, CapturedRow.nulFreed, ← hsealed, h.kind, h.contextId, h.timestamp, h.model]
  rfl

theorem mem_byIdx {s : SessionStore β} {m : SessionManifest} {afterIdx : Int} {r : StoredRecord} :
    r ∈ (livePrefix m afterIdx).filterMap
        (fun i => s.records.find? (m.keyAt i)) ↔
      r ∈ s.records.rows ∧ r.sessionId = m.sessionId ∧ r.part = m.part ∧ 0 ≤ r.idx ∧
        afterIdx < r.idx ∧ r.idx < m.records := by
  simp only [livePrefix, List.mem_filterMap, List.mem_filter, List.mem_range, decide_eq_true_eq,
    Table.find?_eq_some]
  constructor
  · rintro ⟨i, ⟨hlt, hafter⟩, hmem, hkey⟩
    have hidx : r.idx = (i : Int) := congrArg RecordKey.idx hkey
    have hsession : r.sessionId = m.sessionId := congrArg RecordKey.sessionId hkey
    have hpart : r.part = m.part := congrArg RecordKey.part hkey
    refine ⟨hmem, hsession, hpart, ?_, ?_, ?_⟩
    · omega
    · omega
    · omega
  · rintro ⟨hmem, hsession, hpart, hnonneg, hafter, hlt⟩
    have hcast : ((r.idx.toNat : Nat) : Int) = r.idx := Int.toNat_of_nonneg hnonneg
    refine ⟨r.idx.toNat, ⟨by omega, by omega⟩, hmem, ?_⟩
    rw [SessionManifest.keyAt, hcast, ← hsession, ← hpart]

/-- The ordered query lists the records of the live prefix index by index. -/
theorem liveRecords_eq {s : SessionStore β} (hidx : ∀ r ∈ s.records.rows, 0 ≤ r.idx)
    (m : SessionManifest) (afterIdx : Int) :
    liveRecords s m afterIdx =
      (livePrefix m afterIdx).filterMap
        fun i => s.records.find? (m.keyAt i) := by
  have hinjective : ∀ i j : Nat, ∀ r : StoredRecord,
      r ∈ s.records.find? (m.keyAt i) →
        r ∈ s.records.find? (m.keyAt j) → i = j := by
    intro i j r hi hj
    have hkey := (Table.find?_key hi).symm.trans (Table.find?_key hj)
    have hcast : (i : Int) = (j : Int) := congrArg RecordKey.idx hkey
    omega
  have hnodup : ((livePrefix m afterIdx).filterMap fun i => s.records.find? (m.keyAt i)).Nodup :=
    (List.nodup_range.filter _).filterMap hinjective
  have hsorted : ((livePrefix m afterIdx).filterMap fun i =>
      s.records.find? (m.keyAt i)).Pairwise fun a b => a.idx ≤ b.idx := by
    apply List.Pairwise.filterMap (R := fun i j : Nat => i < j)
    · intro i j hij a ha b hb
      have hia : a.idx = (i : Int) := congrArg RecordKey.idx (Table.find?_key ha)
      have hjb : b.idx = (j : Int) := congrArg RecordKey.idx (Table.find?_key hb)
      omega
    · exact List.pairwise_lt_range.filter _
  have hlive : ∀ r, r ∈ liveRecords s m afterIdx ↔
      r ∈ (livePrefix m afterIdx).filterMap fun i => s.records.find? (m.keyAt i) := by
    intro r
    rw [mem_byIdx, liveRecords, List.mem_mergeSort, List.mem_filter, decide_eq_true_eq]
    constructor
    · rintro ⟨hmem, hsession, hpart, hafter, hlt⟩
      exact ⟨hmem, hsession, hpart, hidx r hmem, hafter, hlt⟩
    · rintro ⟨hmem, hsession, hpart, _, hafter, hlt⟩
      exact ⟨hmem, hsession, hpart, hafter, hlt⟩
  have hlivenodup : (liveRecords s m afterIdx).Nodup :=
    (List.mergeSort_perm _ _).nodup_iff.mpr (s.records.rows_nodup.filter _)
  have hlivesorted : (liveRecords s m afterIdx).Pairwise fun a b => a.idx ≤ b.idx := by
    have hmerge := @List.pairwise_mergeSort StoredRecord (fun a b => decide (a.idx ≤ b.idx))
      (by intro a b c hab hbc
          simp only [decide_eq_true_eq] at hab hbc ⊢
          omega)
      (by intro a b
          simp only [Bool.or_eq_true, decide_eq_true_eq]
          omega)
      (s.records.rows.filter fun r => decide (r.sessionId = m.sessionId ∧ r.part = m.part ∧
        afterIdx < r.idx ∧ r.idx < m.records))
    exact hmerge.imp (fun h => by simpa using h)
  have hperm := (List.perm_ext_iff_of_nodup hlivenodup hnodup).mpr hlive
  refine hperm.eq_of_pairwise ?_ hlivesorted hsorted
  intro a b ha hb hab hba
  rw [hlive] at ha
  obtain ⟨hamem, hasession, hapart, _⟩ := mem_byIdx.mp ha
  obtain ⟨hbmem, hbsession, hbpart, _⟩ := mem_byIdx.mp hb
  apply Table.eq_of_key_eq hamem hbmem
  have hidxeq : a.idx = b.idx := by omega
  show RecordKey.mk a.sessionId a.part a.idx = RecordKey.mk b.sessionId b.part b.idx
  rw [hasession, hbsession, hapart, hbpart, hidxeq]

theorem forall₂_filterMap {ι α γ : Type} {R : α → γ → Prop} {f : ι → Option α} {g : ι → Option γ}
    {xs : List ι} (h : ∀ i ∈ xs, Option.Rel R (f i) (g i)) :
    List.Forall₂ R (xs.filterMap f) (xs.filterMap g) := by
  induction xs with
  | nil => exact .nil
  | cons x xs ih =>
      have htail := ih (fun i hi => h i (List.mem_cons_of_mem _ hi))
      have hhead := h x List.mem_cons_self
      rw [List.filterMap_cons, List.filterMap_cons]
      cases hf : f x with
      | none =>
          rw [hf] at hhead
          cases hg : g x with
          | none => exact htail
          | some b =>
              rw [hg] at hhead
              cases hhead
      | some a =>
          rw [hf] at hhead
          cases hg : g x with
          | none =>
              rw [hg] at hhead
              cases hhead
          | some b =>
              rw [hg] at hhead
              cases hhead with
              | some hab => exact .cons hab htail

theorem mapM_ok {ε α γ δ : Type} {f : α → Except ε δ} {g : γ → δ} {xs : List α} {ys : List γ}
    (h : List.Forall₂ (fun x y => f x = .ok (g y)) xs ys) : xs.mapM f = .ok (ys.map g) := by
  induction h with
  | nil => rfl
  | cons hxy _ ih =>
      rw [List.mapM_cons, hxy, List.map_cons]
      show ((_ : Except ε (List δ)).bind _) = _
      rw [ih]
      rfl

/-- A read of tables in step returns the remembered rows. -/
theorem Coherent.read {s : SessionStore β} {latest : SessionLog} (h : Coherent codec s latest)
    (hloads : ReadsBack jsonLoads latest) (sessionId : UUID) (part afterIdx : Int)
    (limit : Nat) :
    readSessionRecords codec jsonLoads s sessionId part afterIdx limit false =
      .ok (expectedRead s latest sessionId part afterIdx limit) := by
  unfold readSessionRecords expectedRead
  cases s.manifests.find? ⟨sessionId, part⟩ with
  | none => rfl
  | some m =>
      have hidx : ∀ r ∈ s.records.rows, 0 ≤ r.idx := by
        intro r hr
        have hfind : s.records.find? r.toRecordKey = some r := Table.find?_eq_some.mpr ⟨hr, rfl⟩
        have hslots := h.slots r.toRecordKey
        cases hlatest : latest.find? r.toRecordKey with
        | none =>
            rw [hlatest] at hslots
            have hnone : s.records.find? r.toRecordKey = none := congrArg Slots.record hslots
            rw [hfind] at hnone
            cases hnone
        | some w => exact h.idx_nonneg r.toRecordKey w hlatest
      dsimp only
      rw [liveRecords_eq hidx]
      apply mapM_ok
      apply List.forall₂_take
      apply forall₂_filterMap
      intro i _
      have hslots := h.slots (m.keyAt i)
      cases hlatest : latest.find? (m.keyAt i) with
      | none =>
          rw [hlatest] at hslots
          have hnone : s.records.find? (m.keyAt i) = none :=
            congrArg Slots.record hslots
          rw [hnone]
          exact .none
      | some w =>
          rw [hlatest] at hslots
          obtain ⟨r, hshows⟩ := hslots
          have hkey : w.key = (m.keyAt i) := Table.find?_key hlatest
          have hfind : s.records.find? (m.keyAt i) = some r := hshows.record
          rw [hfind]
          rw [← hkey] at hshows
          exact .some (hshows.served (hloads _ w hlatest))

/-- In every run whose appends meet their condition, a read returns for every index of the
live prefix the record last written there by a restart, or first written by an append. -/
theorem sessionRun_read {s : SessionStore β} {latest : SessionLog}
    (h : SessionRun codec shardOf s latest) (hloads : ReadsBack jsonLoads latest)
    (sessionId : UUID) (part afterIdx : Int) (limit : Nat) :
    readSessionRecords codec jsonLoads s sessionId part afterIdx limit false =
      .ok (expectedRead s latest sessionId part afterIdx limit) :=
  h.coherent.read hloads sessionId part afterIdx limit

end Reads

/-- A codec that stores the text as it is. -/
def storedAsIs : BodyCodec Text :=
  { encode := fun t => t, decode := .ok, decode_encode := fun _ => rfl }

def loadsEmptyObject (raw : Text) : Except StoreError PlainTree :=
  if raw = dumps (.dict []) then .ok (.dict []) else .error (.value "JSONDecodeError")

def liveSession : Table Session.id :=
  ⟨[{ id := 1, kind := .agentSession }], by decide⟩

/-- A tool result: of a kind whose bodies are offloaded. -/
def toolResult (text : Text) : CapturedRow :=
  { sessionId := 1
    part := 0
    idx := 0
    kind := "BashResult".toList
    payload := []
    text := text
    unique := uniqueKeys_empty }

def openPart : SessionOp :=
  .upsertManifest 1 ['f'] .null 9 [] 1 none false

def offloadAll : SessionOp :=
  .offload 1 0 200 (fun _ => false)

/-- The store and what it should show after some operations, whatever their conditions. -/
def afterOps (ops : List SessionOp) : SessionStore Text × SessionLog :=
  ops.foldl
    (fun p op => (settle (op.run storedAsIs (fun _ => 0)) p.1, op.remember p.1 p.2))
    ({ sessions := liveSession }, ∅)

/-- A run that captures a tool result and offloads it. -/
theorem sessionRun_read_offloaded :
    readSessionRecords storedAsIs loadsEmptyObject
        (afterOps [openPart, .append 1 [toolResult ['a']] false, offloadAll]).1 1 0 (-1) 500 false =
      .ok (expectedRead (afterOps [openPart, .append 1 [toolResult ['a']] false, offloadAll]).1
        (afterOps [openPart, .append 1 [toolResult ['a']] false, offloadAll]).2 1 0 (-1) 500) := by
  have hmeets : AppendMeets storedAsIs [toolResult ['a']] false (afterOps [openPart]).1
      (afterOps [openPart]).2 := by
    refine ⟨?_, ?_, ?_, ?_⟩
    · intro row hrow _
      obtain rfl := List.mem_singleton.mp hrow
      decide
    · intro h
      cases h
    · intro h
      cases h
    · intro _ row hrow bytes hbytes
      obtain rfl := List.mem_singleton.mp hrow
      cases hbytes
  have hrun : SessionRun storedAsIs (fun _ => 0)
      (afterOps [openPart, .append 1 [toolResult ['a']] false, offloadAll]).1
      (afterOps [openPart, .append 1 [toolResult ['a']] false, offloadAll]).2 :=
    .step offloadAll (.step (.append 1 [toolResult ['a']] false)
      (.step openPart (.start liveSession) trivial) fun _ _ => hmeets) trivial
  refine sessionRun_read hrun ?_ 1 0 (-1) 500
  intro k w hw
  have hlast : (afterOps [openPart, .append 1 [toolResult ['a']] false, offloadAll]).2.rows =
      [toolResult ['a']] := rfl
  have hmem := Table.mem_of_find? hw
  rw [hlast] at hmem
  obtain rfl := List.mem_singleton.mp hmem
  rfl

/-- A restart replaces an offloaded tool result, and its reader gets the old text. -/
theorem sessionRead_stale_text :
    let p := afterOps [openPart, .append 1 [toolResult ['a']] false, offloadAll,
      .append 1 [toolResult ['b']] true]
    readSessionRecords storedAsIs loadsEmptyObject p.1 1 0 (-1) 500 false ≠
      .ok (expectedRead p.1 p.2 1 0 (-1) 500) := by
  intro p hread
  have htexts := congrArg (fun r => r.toOption.map (List.map SessionRecordRow.text)) hread
  revert htexts
  decide +kernel

end Trackinizer
