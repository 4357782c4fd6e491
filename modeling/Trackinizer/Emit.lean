import Trackinizer.ChangeLog

namespace Trackinizer

open Keyed Transact

theorem foldr_max_ge {xs : List Nat} {x : Nat} (h : x ∈ xs) : x ≤ xs.foldr max 0 := by
  induction xs with
  | nil => cases h
  | cons y ys ih =>
      rcases List.mem_cons.mp h with rfl | h
      · exact Nat.le_max_left _ _
      · exact le_trans (ih h) (Nat.le_max_right _ _)

theorem find?_freshChangeId (log : Table Change.id) : log.find? (freshChangeId log) = none := by
  rw [Table.find?_eq_none]
  intro row hrow hid
  have hle := foldr_max_ge (List.mem_map.mpr ⟨row, hrow, rfl⟩ : row.id ∈ log.rows.map Change.id)
  rw [hid, freshChangeId] at hle
  omega

theorem uncosted_chargeRow (id : UUID) (cost : MarginalCost) (r : Inquiry) :
    (chargeRow id cost r).uncosted = r.uncosted := by
  unfold chargeRow
  split <;> rfl

/-- The row an emission writes, up to its id, subscribers and cost columns. -/
def Emission.Writes (e : Emission) (row : Change) : Prop :=
  ∃ subs oldCost newCost, row = e.row row.id subs oldCost newCost

/-- Between the two states nothing but the audit moved: rows that meet `p` were appended
to the log, and running totals were charged. -/
structure Appends (p : Change → Prop) (tx tx' : Tx) : Prop where
  edges : tx'.edges = tx.edges
  inquiries : tx'.inquiries.rows.map Inquiry.uncosted = tx.inquiries.rows.map Inquiry.uncosted
  slot : tx.clientChangeId = none → tx'.clientChangeId = none
  log : ∃ rows, tx'.changeLog.rows = tx.changeLog.rows ++ rows ∧ ∀ row ∈ rows, p row

instance (p : Change → Prop) : IsPreorder Tx (Appends p) where
  refl tx := ⟨rfl, rfl, id, [], by simp, by simp⟩
  trans a b c hab hbc := by
    obtain ⟨rows, hrows, hp⟩ := hab.log
    obtain ⟨rows', hrows', hp'⟩ := hbc.log
    refine ⟨hbc.edges.trans hab.edges, hbc.inquiries.trans hab.inquiries,
      fun h => hbc.slot (hab.slot h), rows ++ rows', ?_, ?_⟩
    · rw [hrows', hrows, List.append_assoc]
    · intro row hrow
      exact (List.mem_append.mp hrow).elim (hp row) (hp' row)

/-- How the totals of the emission's subject moved; a purged subject has none. -/
def Charged (e : Emission) (tx tx' : Tx) : Prop :=
  match tx.inquiries.find? e.subjectId with
  | none => tx'.inquiries = tx.inquiries
  | some subject => ∃ cost,
      subject.marginalCost.charge? (e.marginalCost.add e.costDelta) = some cost ∧
        tx'.inquiries = tx.inquiries.update (chargeRow e.subjectId cost) (e.chargeRow_id cost)

theorem Charged.uncosted {e : Emission} {tx tx' : Tx} (h : Charged e tx tx') :
    tx'.inquiries.rows.map Inquiry.uncosted = tx.inquiries.rows.map Inquiry.uncosted := by
  unfold Charged at h
  split at h
  next => rw [h]
  next =>
    obtain ⟨cost, _, hupdate⟩ := h
    rw [hupdate, Table.rows_update, List.map_map]
    exact List.map_congr_left (fun r _ => uncosted_chargeRow _ _ r)

/-- The emission landed as the one new row `row`. -/
structure Recorded (e : Emission) (tx tx' : Tx) (row : Change) : Prop where
  writes : e.Writes row
  fresh : tx.changeLog.find? row.id = none
  log : tx'.changeLog.rows = tx.changeLog.rows ++ [row]
  charged : Charged e tx tx'
  edges : tx'.edges = tx.edges

theorem Recorded.appends {e : Emission} {tx tx' : Tx} {row : Change}
    (h : Recorded e tx tx' row) (hslot : tx.clientChangeId = none → tx'.clientChangeId = none)
    {p : Change → Prop} (hp : p row) : Appends p tx tx' := by
  refine ⟨h.edges, h.charged.uncosted, hslot, [row], h.log, ?_⟩
  intro r hr
  rwa [List.mem_singleton.mp hr]

theorem insertChange_ok {row : Change} {tx tx' : Tx} {u : Unit}
    (h : insertChange row tx = .ok (u, tx')) :
    tx.changeLog.find? row.id = none ∧ tx'.changeLog.rows = tx.changeLog.rows ++ [row] ∧
      tx'.inquiries = tx.inquiries ∧ tx'.edges = tx.edges ∧
      tx'.clientChangeId = tx.clientChangeId := by
  rw [insertChange, get_bind_ok, orThrow_bind_ok] at h
  obtain ⟨log, hlog, h⟩ := h
  cases h
  obtain ⟨hfresh, hrows⟩ := Table.insert?_eq_some.mp hlog
  exact ⟨hfresh, hrows, rfl, rfl, rfl⟩

theorem applyChange_ok {e : Emission} {changeId : UUID} {tx tx' : Tx} {subs : List Actor}
    (h : applyChange e changeId tx = .ok (subs, tx')) :
    ∃ row, row.id = changeId ∧ row.subscribersSnapshot = subs ∧ Recorded e tx tx' row ∧
      tx'.clientChangeId = tx.clientChangeId := by
  rw [applyChange, get_bind_ok] at h
  cases hsubject : tx.inquiries.find? e.subjectId with
  | none =>
      rw [hsubject] at h
      obtain ⟨_, t, hinsert, hret⟩ := bind_ok.mp h
      cases hret
      obtain ⟨hfresh, hlog, hinq, hedges, hslot⟩ := insertChange_ok hinsert
      refine ⟨_, rfl, rfl, ⟨⟨_, _, _, rfl⟩, hfresh, hlog, ?_, hedges⟩, hslot⟩
      simp only [Charged, hsubject, hinq]
  | some subject =>
      rw [hsubject] at h
      obtain ⟨cost, hcost, hset⟩ := orThrow_bind_ok.mp h
      obtain ⟨_, t, hinsert, hret⟩ := bind_ok.mp (set_bind_ok.mp hset)
      cases hret
      obtain ⟨hfresh, hlog, hinq, hedges, hslot⟩ := insertChange_ok hinsert
      refine ⟨_, rfl, rfl, ⟨⟨_, _, _, rfl⟩, hfresh, hlog, ?_, hedges⟩, hslot⟩
      simp only [Charged, hsubject]
      exact ⟨cost, hcost, hinq⟩

theorem insertChange_total {row : Change} {tx : Tx} (h : tx.changeLog.find? row.id = none) :
    ∃ tx', insertChange row tx = .ok ((), tx') := by
  obtain ⟨log, hlog⟩ : ∃ log, tx.changeLog.insert? row = some log := by
    cases hinsert : tx.changeLog.insert? row with
    | some log => exact ⟨log, rfl⟩
    | none =>
        obtain ⟨old, hold⟩ := Table.insert?_eq_none.mp hinsert
        rw [h] at hold
        cases hold
  refine ⟨{ tx with changeLog := log }, ?_⟩
  rw [insertChange, get_bind_ok, orThrow_bind_ok]
  exact ⟨log, hlog, rfl⟩

/-- A change lands when its id is new and its subject, if it is there, can bear the cost. -/
theorem applyChange_total {e : Emission} {changeId : UUID} {tx : Tx}
    (hfresh : tx.changeLog.find? changeId = none)
    (hcharge : ∀ subject, tx.inquiries.find? e.subjectId = some subject →
      ∃ cost, subject.marginalCost.charge? (e.marginalCost.add e.costDelta) = some cost) :
    ∃ subs tx', applyChange e changeId tx = .ok (subs, tx') := by
  cases hsubject : tx.inquiries.find? e.subjectId with
  | none =>
      let row := e.row changeId [] {} {}
      obtain ⟨t, ht⟩ := @insertChange_total row tx hfresh
      refine ⟨row.subscribersSnapshot, t, ?_⟩
      rw [applyChange, get_bind_ok, hsubject]
      exact bind_ok.mpr ⟨(), t, ht, rfl⟩
  | some subject =>
      obtain ⟨cost, hcost⟩ := hcharge subject hsubject
      let row := e.row changeId subject.subscribers subject.marginalCost.toCost cost.toCost
      let charged : Tx := { tx with
        inquiries := tx.inquiries.update (chargeRow e.subjectId cost) (chargeRow_id _ _) }
      obtain ⟨t, ht⟩ := @insertChange_total row charged hfresh
      refine ⟨row.subscribersSnapshot, t, ?_⟩
      rw [applyChange, get_bind_ok, hsubject]
      apply orThrow_bind_ok.mpr
      refine ⟨cost, hcost, ?_⟩
      exact set_bind_ok.mpr (bind_ok.mpr ⟨(), t, ht, rfl⟩)

/-- The emission found its key on an earlier row of the same actor, subject and kind,
and wrote nothing. -/
structure Replayed (e : Emission) (tx tx' : Tx) (row : Change) : Prop where
  key : tx.clientChangeId = some row.id
  found : tx.changeLog.find? row.id = some row
  kind_ne : e.kind ≠ .created
  actor : row.actor = e.actor
  subject : row.subjectId = e.subjectId
  kind : row.kind = e.kind
  unchanged : tx' = { tx with clientChangeId := none }

theorem onUniqueViolation_ok {α : Type} {body handler : TxM α} {tx tx' : Tx} {a : α}
    (h : onUniqueViolation body handler tx = .ok (a, tx')) :
    body tx = .ok (a, tx') ∨
      (body tx = .error .uniqueViolation ∧ handler tx = .ok (a, tx')) := by
  unfold onUniqueViolation at h
  split at h
  next hbody => exact Or.inr ⟨hbody, h⟩
  next => exact Or.inl h

theorem replayChange_ok {e : Emission} {changeId : UUID} {tx tx' : Tx} {r : Emitted}
    (h : replayChange e changeId tx = .ok (r, tx')) :
    ∃ row, tx.changeLog.find? changeId = some row ∧ e.kind ≠ .created ∧
      (row.actor = e.actor ∧ row.subjectId = e.subjectId ∧ row.kind = e.kind) ∧
      r = ⟨changeId, row.subscribersSnapshot, true⟩ ∧ tx' = tx := by
  rw [replayChange, get_bind_ok, orThrow_bind_ok] at h
  obtain ⟨row, hrow, h⟩ := h
  rw [ensure_bind_ok, ensure_bind_ok] at h
  obtain ⟨hkind, hmatch, h⟩ := h
  cases h
  exact ⟨row, hrow, hkind, hmatch, rfl, rfl⟩

/-- `emit_change` either writes its row or replays an earlier one, and consumes the slot. -/
theorem emitRow_ok {e : Emission} {tx tx' : Tx} {r : Emitted}
    (h : emitRow e tx = .ok (r, tx')) :
    ∃ row, row.id = r.changeId ∧ row.subscribersSnapshot = r.subscribers ∧
      tx'.clientChangeId = none ∧ (tx.clientChangeId = none ∨ tx.clientChangeId = some row.id) ∧
      (r.replayed = false ∧ Recorded e tx tx' row ∨
        r.replayed = true ∧ Replayed e tx tx' row) := by
  unfold emitRow at h
  obtain ⟨slot, t, hslot, h⟩ := bind_ok.mp h
  cases hslot
  cases hkey : tx.clientChangeId with
  | none =>
      rw [hkey] at h
      obtain ⟨_, _, hget, h⟩ := bind_ok.mp h
      cases hget
      obtain ⟨subs, t, happly, h⟩ := bind_ok.mp h
      cases h
      obtain ⟨row, hid, hsubs, hrec, hkeep⟩ := applyChange_ok happly
      exact ⟨row, hid, hsubs, hkeep, Or.inl rfl,
        Or.inl ⟨rfl, ⟨hrec.writes, hrec.fresh, hrec.log, hrec.charged, hrec.edges⟩⟩⟩
  | some changeId =>
      rw [hkey] at h
      rcases onUniqueViolation_ok h with h | ⟨_, h⟩
      · obtain ⟨subs, t, happly, h⟩ := bind_ok.mp h
        cases h
        obtain ⟨row, hid, hsubs, hrec, hkeep⟩ := applyChange_ok happly
        exact ⟨row, hid, hsubs, hkeep, Or.inr (congrArg some hid.symm),
          Or.inl ⟨rfl, ⟨hrec.writes, hrec.fresh, hrec.log, hrec.charged, hrec.edges⟩⟩⟩
      · obtain ⟨row, hfound, hkind, ⟨hactor, hsubject, hsame⟩, rfl, rfl⟩ := replayChange_ok h
        have hid : row.id = changeId := Table.find?_key hfound
        subst hid
        exact ⟨row, rfl, rfl, rfl, Or.inr rfl,
          Or.inr ⟨rfl, ⟨hkey, hfound, hkind, hactor, hsubject, hsame, rfl⟩⟩⟩

/-- With the slot empty an emission always writes its row. -/
theorem emitRow_ok_of_slot_none {e : Emission} {tx tx' : Tx} {r : Emitted}
    (h : emitRow e tx = .ok (r, tx')) (hslot : tx.clientChangeId = none) :
    ∃ row, row.id = r.changeId ∧ r.replayed = false ∧ Recorded e tx tx' row ∧
      tx'.clientChangeId = none := by
  obtain ⟨row, hid, _, hslot', _, hcase⟩ := emitRow_ok h
  rcases hcase with ⟨hnew, hrec⟩ | ⟨_, hrep⟩
  · exact ⟨row, hid, hnew, hrec, hslot'⟩
  · have hkey := hrep.key
    rw [hslot] at hkey
    cases hkey

end Trackinizer
