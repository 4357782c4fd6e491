import Trackinizer.SessionStore

namespace Trackinizer

open Keyed Transact

namespace Sessions

/-- What a row of `inquiries` says of a session's life. -/
structure LifeRow where
  id : UUID
  kind : InquiryKind
  owner : Value
  ended : Value
  status : Value
  deriving DecidableEq

end Sessions

def Inquiry.life (r : Inquiry) : Sessions.LifeRow :=
  ⟨r.id, r.kind, r.owner, r.ended, r.status⟩

/-- The end a change of `agentsession_ended` leaves. -/
def Change.newEnded (row : Change) : Value :=
  ((row.new.columns.find? fun c => decide (c.1 = .agentsessionEnded)).map Prod.snd).getD .null

namespace Sessions

/-- The `agentsession_ended` rows of a log, each with the end it leaves. -/
def endings (log : List Change) : List (UUID × Value) :=
  log.filterMap fun row =>
    if row.kind = .column .agentsessionEnded then some (row.subjectId, row.newEnded) else none

/-- The rows that a log says were created, with their kinds. -/
def creations (log : List Change) : List (UUID × InquiryKind) :=
  log.filterMap fun row =>
    if row.kind = .created then some (row.subjectId, row.subjectKind) else none

/-- Folding a session's rows in order gives the end that the last one leaves. -/
def foldEnded (endings : List (UUID × Value)) (id : UUID) : Value :=
  endings.foldl (fun ended row => if row.1 = id then row.2 else ended) .null

/-- What the lives of the sessions are made of: the rows, and the audit of their start and ends. -/
@[ext]
structure Life where
  rows : List LifeRow
  endings : List (UUID × Value)
  creations : List (UUID × InquiryKind)

def Life.set (l : Life) (id : UUID) (ended status : Value) : Life :=
  { l with
    rows := l.rows.map fun r => if r.id = id then { r with ended := ended, status := status } else r }

def Life.audit (l : Life) (id : UUID) (ended : Value) : Life :=
  { l with endings := l.endings ++ [(id, ended)] }

end Sessions

def Tx.life (tx : Tx) : Sessions.Life :=
  ⟨tx.inquiries.rows.map Inquiry.life, Sessions.endings tx.changeLog.rows,
    Sessions.creations tx.changeLog.rows⟩

namespace Sessions

theorem foldEnded_audit (endings : List (UUID × Value)) (id id' : UUID) (ended : Value) :
    foldEnded (endings ++ [(id, ended)]) id' =
      if id = id' then ended else foldEnded endings id' := by
  unfold foldEnded
  rw [List.foldl_append, List.foldl_cons, List.foldl_nil]

theorem endings_append (log rows : List Change) :
    endings (log ++ rows) = endings log ++ endings rows :=
  List.filterMap_append ..

theorem creations_append (log rows : List Change) :
    creations (log ++ rows) = creations log ++ creations rows :=
  List.filterMap_append ..

/-- A change of the kind says nothing of a session's start or end. -/
def Aside (kind : ChangeKind) : Prop :=
  kind ≠ .column .agentsessionEnded ∧ kind ≠ .created

theorem endings_of_aside {rows : List Change} (h : ∀ row ∈ rows, Aside row.kind) :
    endings rows = [] := by
  unfold endings
  rw [List.filterMap_eq_nil_iff]
  intro row hrow
  exact if_neg (h row hrow).1

theorem creations_of_aside {rows : List Change} (h : ∀ row ∈ rows, Aside row.kind) :
    creations rows = [] := by
  unfold creations
  rw [List.filterMap_eq_nil_iff]
  intro row hrow
  exact if_neg (h row hrow).2

theorem aside_column {column : Column} (h : column ≠ .agentsessionEnded) :
    Aside (.column column) :=
  ⟨fun hkind => h (ChangeKind.column.inj hkind), nofun⟩

/-- Between the two states no session's life has moved. -/
def SameLife (tx tx' : Tx) : Prop :=
  tx'.life = tx.life

instance : IsPreorder Tx SameLife where
  refl _ := rfl
  trans _ _ _ hab hbc := Eq.trans hbc hab

theorem rows_of_uncosted {rows rows' : List Inquiry}
    (h : rows'.map Inquiry.uncosted = rows.map Inquiry.uncosted) :
    rows'.map Inquiry.life = rows.map Inquiry.life := by
  have hlife : ∀ xs : List Inquiry,
      xs.map Inquiry.life = (xs.map Inquiry.uncosted).map Inquiry.life := by
    intro xs
    rw [List.map_map]
    rfl
  rw [hlife rows', h, ← hlife rows]

theorem sameLife_of_appends {p : Change → Prop} {tx tx' : Tx} (h : Appends p tx tx')
    (hp : ∀ row, p row → Aside row.kind) : SameLife tx tx' := by
  obtain ⟨rows, hrows, hall⟩ := h.log
  have haside : ∀ row ∈ rows, Aside row.kind := fun row hrow => hp row (hall row hrow)
  refine Life.ext (rows_of_uncosted h.inquiries) ?_ ?_
  · show endings tx'.changeLog.rows = endings tx.changeLog.rows
    rw [hrows, endings_append, endings_of_aside haside, List.append_nil]
  · show creations tx'.changeLog.rows = creations tx.changeLog.rows
    rw [hrows, creations_append, creations_of_aside haside, List.append_nil]

theorem alert_aside {row : Change} (h : row.IsAlert) : Aside row.kind := by
  rw [h]
  exact ⟨nofun, nofun⟩

theorem emitRow_sameLife {e : Emission} (h : Aside e.kind) : Keeps SameLife (emitRow e) :=
  (emitRow_keeps fun _ hrow => hrow.kind).mono fun _ _ happends =>
    sameLife_of_appends happends fun _ hkind => hkind ▸ h

theorem emitChange_sameLife {e : Emission} {cascade : Bool} (h : Aside e.kind) :
    Keeps SameLife (emitChange e cascade) := by
  intro tx r tx' hrun
  obtain ⟨t, hrow, hrest⟩ := emitChange_ok hrun
  exact trans_of SameLife (emitRow_sameLife h hrow) (sameLife_of_appends hrest fun _ => alert_aside)

theorem emitFieldChange_sameLife {id : UUID} {column : Column} {old new : Value} {origin : Origin}
    (h : column ≠ .agentsessionEnded) :
    Keeps SameLife (emitFieldChange id column old new origin) :=
  keeps_bind (emitChange_sameLife (aside_column h)) fun _ => keeps_pure _

/-- What the constraint on a session's life asks of its row. -/
def LifeRow.Legal (r : LifeRow) : Prop :=
  if r.kind = .agentSession then (r.ended ≠ .null ↔ r.status = complete) else r.ended = .null

theorem legal_of_check {r : Inquiry} (h : r.lifecycleCheck = true) : r.life.Legal := by
  unfold Inquiry.lifecycleCheck at h
  show if r.kind = .agentSession then (r.ended ≠ .null ↔ r.status = complete) else r.ended = .null
  split at h
  next hkind =>
    rw [if_pos hkind]
    exact decide_eq_decide.mp (beq_iff_eq.mp h)
  next hkind =>
    rw [if_neg hkind]
    exact of_decide_eq_true h

theorem mem_life {tx : Tx} {r : LifeRow} (h : r ∈ tx.life.rows) :
    ∃ row, tx.inquiries.find? r.id = some row ∧ row.life = r := by
  obtain ⟨row, hrow, rfl⟩ := List.mem_map.mp h
  exact ⟨row, Table.find?_eq_some.mpr ⟨hrow, rfl⟩, rfl⟩

theorem life_mem {tx : Tx} {row : Inquiry} {id : UUID} (h : tx.inquiries.find? id = some row) :
    row.life ∈ tx.life.rows :=
  List.mem_map.mpr ⟨row, (Table.find?_eq_some.mp h).1, rfl⟩

/-- The request's key is that of an earlier end or re-opening of the session by the actor. -/
def KeyReused (tx : Tx) (id : UUID) (actor : Actor) : Prop :=
  ∃ row, tx.clientChangeId = some row.id ∧ tx.changeLog.find? row.id = some row ∧
    row.actor = actor ∧ row.subjectId = id ∧ row.kind = .column .agentsessionEnded

/-- The audit of an end is written, or replayed under a key that is used again. -/
theorem emitEnded_ok {id : UUID} {old new : Value} {origin : Origin} {tx tx' : Tx} {u : Unit}
    (h : emitFieldChange id .agentsessionEnded old new origin tx = .ok (u, tx')) :
    tx'.clientChangeId = none ∧
      (tx'.life = tx.life.audit id new ∨ KeyReused tx id origin.actor ∧ tx'.life = tx.life) := by
  obtain ⟨r, t, hemit, hret⟩ := bind_ok.mp h
  cases hret
  obtain ⟨t, hrow, hrest⟩ := emitChange_ok hemit
  have hsame : tx'.life = t.life := sameLife_of_appends hrest fun _ => alert_aside
  obtain ⟨row, _, _, hslot, _, hcase⟩ := emitRow_ok hrow
  refine ⟨hrest.slot hslot, ?_⟩
  rcases hcase with ⟨_, hrec⟩ | ⟨_, hrep⟩
  · refine Or.inl ?_
    rw [hsame]
    obtain ⟨subs, oldCost, newCost, hwrites⟩ := hrec.writes
    refine Life.ext (rows_of_uncosted hrec.charged.uncosted) ?_ ?_
    · show endings t.changeLog.rows = endings tx.changeLog.rows ++ [(id, new)]
      have hone : endings [row] = [(id, new)] := by
        rw [hwrites]
        rfl
      rw [hrec.log, endings_append, hone]
    · show creations t.changeLog.rows = creations tx.changeLog.rows
      have hnone : creations [row] = [] := by
        rw [hwrites]
        rfl
      rw [hrec.log, creations_append, hnone, List.append_nil]
  · refine Or.inr ⟨⟨row, hrep.key, hrep.found, hrep.actor, hrep.subject, hrep.kind⟩, ?_⟩
    rw [hsame, hrep.unchanged]
    rfl

/-- The creation of a row is never replayed. -/
theorem emitCreated_ok {e : Emission} {cascade : Bool} {tx tx' : Tx} {r : Emitted}
    (hkind : e.kind = .created) (h : emitChange e cascade tx = .ok (r, tx')) :
    tx'.life = { tx.life with
      creations := tx.life.creations ++ [(e.subjectId, e.subjectKind)] } := by
  obtain ⟨t, hrow, hrest⟩ := emitChange_ok h
  have hsame : tx'.life = t.life := sameLife_of_appends hrest fun _ => alert_aside
  obtain ⟨row, _, _, _, _, hcase⟩ := emitRow_ok hrow
  rcases hcase with ⟨_, hrec⟩ | ⟨_, hrep⟩
  · rw [hsame]
    obtain ⟨subs, oldCost, newCost, hwrites⟩ := hrec.writes
    have hrowkind : row.kind = .created := by
      rw [hwrites]
      exact hkind
    refine Life.ext (rows_of_uncosted hrec.charged.uncosted) ?_ ?_
    · show endings t.changeLog.rows = endings tx.changeLog.rows
      have hnone : endings [row] = [] := by
        unfold endings
        rw [List.filterMap_cons, hrowkind]
        rfl
      rw [hrec.log, endings_append, hnone, List.append_nil]
    · show creations t.changeLog.rows = creations tx.changeLog.rows ++ _
      have hone : creations [row] = [(e.subjectId, e.subjectKind)] := by
        unfold creations
        rw [List.filterMap_cons, hrowkind, hwrites]
        rfl
      rw [hrec.log, creations_append, hone]
  · exact absurd hkind hrep.kind_ne

theorem keyReused_congr {tx tx' : Tx} {id : UUID} {actor : Actor}
    (hlog : tx'.changeLog = tx.changeLog) (hslot : tx'.clientChangeId = tx.clientChangeId)
    (h : KeyReused tx' id actor) : KeyReused tx id actor := by
  unfold KeyReused at h ⊢
  rwa [hlog, hslot] at h

theorem not_keyReused {tx : Tx} {id : UUID} {actor : Actor} (h : tx.clientChangeId = none) :
    ¬ KeyReused tx id actor := by
  rintro ⟨row, hkey, _⟩
  rw [h] at hkey
  cases hkey

theorem setColumn_life {id : UUID} {column : Column} {value : Value}
    (hended : column ≠ .agentsessionEnded) (hstatus : column ≠ .status) (howner : column ≠ .owner)
    (r : Inquiry) : (setColumn id column value r).life = r.life := by
  unfold setColumn
  split
  next =>
    unfold Inquiry.life Inquiry.ended Inquiry.status Inquiry.owner
    simp only [Function.update_of_ne (Ne.symm hended), Function.update_of_ne (Ne.symm hstatus),
      Function.update_of_ne (Ne.symm howner)]
  next => rfl

theorem updateField_ok {id : UUID} {column : Column} {value : Value} {tx tx' : Tx} {u : Unit}
    (h : updateField id column value tx = .ok (u, tx')) (hended : column ≠ .agentsessionEnded)
    (hstatus : column ≠ .status) (howner : column ≠ .owner) :
    tx'.life = tx.life ∧ tx'.changeLog = tx.changeLog ∧
      tx'.clientChangeId = tx.clientChangeId := by
  cases h
  refine ⟨Life.ext ?_ rfl rfl, rfl, rfl⟩
  show (tx.inquiries.rows.map _).map Inquiry.life = tx.inquiries.rows.map Inquiry.life
  rw [List.map_map]
  exact List.map_congr_left fun r _ => setColumn_life hended hstatus howner r

theorem setLifecycle_life (id : UUID) (ended status : Value) (r : Inquiry) :
    (setLifecycle id ended status r).life =
      if r.life.id = id then { r.life with ended := ended, status := status } else r.life := by
  unfold setLifecycle setColumn
  show _ = if r.id = id then _ else _
  by_cases hid : r.id = id
  · subst hid
    simp only [if_true]
    rfl
  · simp only [hid, if_false]

theorem checkRow_ok {id : UUID} {tx tx' : Tx} {u : Unit} (h : checkRow id tx = .ok (u, tx')) :
    tx' = tx ∧ ∀ row, tx.inquiries.find? id = some row →
      row.lifecycleCheck = true ∧ ownsAlone tx.inquiries row = true := by
  unfold checkRow at h
  rw [get_bind_ok] at h
  cases hrow : tx.inquiries.find? id with
  | none =>
    rw [hrow] at h
    cases h
    exact ⟨rfl, nofun⟩
  | some row =>
    rw [hrow] at h
    obtain ⟨hcheck, h⟩ := ensure_bind_ok.mp h
    obtain ⟨halone, rfl⟩ := ensure_ok.mp h
    refine ⟨rfl, ?_⟩
    intro row' hrow'
    cases hrow'
    exact ⟨hcheck, halone⟩

theorem updateLifecycle_ok {id : UUID} {ended status : Value} {tx tx' : Tx} {u : Unit}
    (h : updateLifecycle id ended status tx = .ok (u, tx')) :
    tx'.life = tx.life.set id ended status ∧ tx'.changeLog = tx.changeLog ∧
      tx'.clientChangeId = tx.clientChangeId ∧
      ∀ row, tx'.inquiries.find? id = some row →
        row.lifecycleCheck = true ∧ ownsAlone tx'.inquiries row = true := by
  obtain ⟨_, t, hmodify, hcheck⟩ := bind_ok.mp h
  cases hmodify
  obtain ⟨rfl, hrow⟩ := checkRow_ok hcheck
  refine ⟨Life.ext ?_ rfl rfl, rfl, rfl, hrow⟩
  show (tx.inquiries.rows.map _).map Inquiry.life = _
  unfold Life.set Tx.life
  rw [List.map_map, List.map_map]
  exact List.map_congr_left fun r _ => setLifecycle_life id ended status r

theorem emitFieldChange_slot {id : UUID} {column : Column} {old new : Value} {origin : Origin}
    {tx tx' : Tx} {u : Unit} (h : emitFieldChange id column old new origin tx = .ok (u, tx')) :
    tx'.clientChangeId = none := by
  obtain ⟨r, t, hemit, hret⟩ := bind_ok.mp h
  cases hret
  obtain ⟨t, hrow, hrest⟩ := emitChange_ok hemit
  obtain ⟨row, _, _, hslot, _⟩ := emitRow_ok hrow
  exact hrest.slot hslot

/-- An end fills in a session id that the row does not have. -/
def Backfills (row : Inquiry) : Option Text → Prop
  | none => False
  | some cliSessionId => Value.text cliSessionId ≠ row.fields .agentsessionCliSessionId

theorem backfill_ok {row : Inquiry} {origin : Origin} {cliSessionId : Option Text} {tx tx' : Tx}
    {u : Unit} (h : backfillCliSessionId row origin cliSessionId tx = .ok (u, tx')) :
    tx'.life = tx.life ∧
      (¬ Backfills row cliSessionId ∧ tx' = tx ∨ tx'.clientChangeId = none) := by
  cases cliSessionId with
  | none =>
    cases h
    exact ⟨rfl, Or.inl ⟨id, rfl⟩⟩
  | some cliSessionId =>
    unfold backfillCliSessionId at h
    simp only at h
    split at h
    next =>
      obtain ⟨_, t, hupdate, hemit⟩ := bind_ok.mp h
      obtain ⟨hlife, _, _⟩ := updateField_ok hupdate (by simp) (by simp) (by simp)
      exact ⟨(emitFieldChange_sameLife (by simp) hemit).trans hlife,
        Or.inr (emitFieldChange_slot hemit)⟩
    next hsame =>
      cases h
      exact ⟨rfl, Or.inl ⟨hsame, rfl⟩⟩

theorem emitStatusChange_sameLife (row : Inquiry) (status : Value) (origin : Origin) :
    Keeps SameLife (emitStatusChange row status origin) := by
  unfold emitStatusChange
  split
  next => exact emitFieldChange_sameLife (by simp)
  next => exact keeps_pure _

/-- Only a session is ended. -/
theorem kind_of_end {tx tx' : Tx} {id : UUID} {ended status : Value} {u : Unit}
    (h : updateLifecycle id ended status tx = .ok (u, tx')) (hended : ended ≠ .null)
    {r : LifeRow} (hr : r ∈ tx.life.rows) (hid : r.id = id) : r.kind = .agentSession := by
  obtain ⟨hset, _, _, hrows⟩ := updateLifecycle_ok h
  have hmem : { r with ended := ended, status := status } ∈ tx'.life.rows := by
    rw [hset]
    exact List.mem_map.mpr ⟨r, hr, if_pos hid⟩
  obtain ⟨row, hrow, hlife⟩ := mem_life hmem
  have hlegal := legal_of_check (hrows row (hid ▸ hrow)).1
  rw [hlife, LifeRow.Legal] at hlegal
  by_contra hother
  rw [if_neg hother] at hlegal
  exact hended hlegal

/-- A session is ended, and its end is audited unless the key's row is replayed for it. -/
theorem endOnConn_ok {row : Inquiry} {ended : Int} {cliSessionId : Option Text} {origin : Origin}
    {tx tx' : Tx} {u : Unit} (h : endOnConn row ended cliSessionId origin tx = .ok (u, tx')) :
    (∀ r ∈ tx.life.rows, r.id = row.id → r.kind = .agentSession) ∧
    (tx'.life = (tx.life.set row.id (.time ended) complete).audit row.id (.time ended) ∨
      (¬ Backfills row cliSessionId ∧ KeyReused tx row.id origin.actor) ∧
        tx'.life = tx.life.set row.id (.time ended) complete) := by
  obtain ⟨_, t₁, hbackfill, h⟩ := bind_ok.mp h
  obtain ⟨_, t₂, hupdate, h⟩ := bind_ok.mp h
  obtain ⟨_, t₃, hemit, hstatus⟩ := bind_ok.mp h
  obtain ⟨hsame₁, hslot₁⟩ := backfill_ok hbackfill
  obtain ⟨hset, hlog, hslot₂, _⟩ := updateLifecycle_ok hupdate
  have hsame₃ : tx'.life = t₃.life := emitStatusChange_sameLife _ _ _ hstatus
  refine ⟨fun r hr => kind_of_end hupdate (by simp) (hsame₁ ▸ hr), ?_⟩
  rw [hsame₃]
  rcases (emitEnded_ok hemit).2 with hwritten | ⟨hreused, hreplayed⟩
  · refine Or.inl ?_
    rw [hwritten, hset, hsame₁]
  · have hkey := keyReused_congr hlog hslot₂ hreused
    rcases hslot₁ with ⟨hbackfills, rfl⟩ | hnone
    · refine Or.inr ⟨⟨hbackfills, hkey⟩, ?_⟩
      rw [hreplayed, hset]
    · exact absurd hkey (not_keyReused hnone)

theorem onTx_ok {α : Type} {x : TxM α} {s s' : SessionTx} {a : α}
    (h : onTx x s = .ok (a, s')) :
    ∃ tx, x s.toTx = .ok (a, tx) ∧ s' = { s with toTx := tx } := by
  unfold onTx at h
  split at h
  next b tx hrun =>
    cases h
    exact ⟨tx, hrun, rfl⟩
  next => cases h

/-- A session is live again and watched from now. -/
theorem reopenOnConn_ok {now : Int} {row : Inquiry} {origin : Origin} {s s' : SessionTx} {u : Unit}
    (h : reopenOnConn now row origin s = .ok (u, s')) :
    s'.liveness = s.liveness.update (reviveLiveness row.id now) (reviveLiveness_id _ _) ∧
      (s'.life = (s.life.set row.id .null active).audit row.id .null ∨
        KeyReused s.toTx row.id origin.actor ∧ s'.life = s.life.set row.id .null active) := by
  obtain ⟨_, s₁, hfirst, h⟩ := bind_ok.mp h
  obtain ⟨_, s₂, hmodify, h⟩ := bind_ok.mp h
  obtain ⟨_, s₃, hthird, hfourth⟩ := bind_ok.mp h
  obtain ⟨t₁, hupdate, rfl⟩ := onTx_ok hfirst
  cases hmodify
  obtain ⟨t₃, hemit, rfl⟩ := onTx_ok hthird
  obtain ⟨t₄, hstatus, rfl⟩ := onTx_ok hfourth
  obtain ⟨hset, hlog, hslot, _⟩ := updateLifecycle_ok hupdate
  have hsame : t₄.life = t₃.life := emitStatusChange_sameLife _ _ _ hstatus
  refine ⟨rfl, ?_⟩
  show t₄.life = _ ∨ _ ∧ t₄.life = _
  rw [hsame]
  rcases (emitEnded_ok hemit).2 with hwritten | ⟨hreused, hreplayed⟩
  · exact Or.inl (hwritten.trans (congrArg (Life.audit · row.id .null) hset))
  · exact Or.inr ⟨keyReused_congr hlog hslot hreused, hreplayed.trans hset⟩

/-- A private resume hides an open session. -/
def Hides (row : Inquiry) : Option (Except StoreError Unit) → Prop
  | none => False
  | some _ => row.fields .agentsessionAudience ≠ privateAudience

theorem hideResumed_ok {row : Inquiry} {origin : Origin} {policy : Except StoreError Unit}
    {tx tx' : Tx} {u : Unit} (h : hideResumed row origin policy tx = .ok (u, tx')) :
    tx'.life = tx.life ∧ (row.fields .agentsessionAudience = privateAudience ∧ tx' = tx ∨
      tx'.clientChangeId = none) := by
  unfold hideResumed at h
  split at h
  next hprivate =>
    cases h
    exact ⟨rfl, Or.inl ⟨hprivate, rfl⟩⟩
  next =>
    obtain ⟨_, h⟩ := ensure_bind_ok.mp h
    obtain ⟨_, t, hupdate, h⟩ := bind_ok.mp h
    obtain ⟨_, t', hemit, hpolicy⟩ := bind_ok.mp h
    obtain ⟨_, rfl⟩ := fromExcept_ok.mp hpolicy
    obtain ⟨hlife, _, _⟩ := updateField_ok hupdate (by simp) (by simp) (by simp)
    exact ⟨(emitFieldChange_sameLife (by simp) hemit).trans hlife,
      Or.inr (emitFieldChange_slot hemit)⟩

theorem hideFor_ok {row : Inquiry} {origin : Origin} {hide : Option (Except StoreError Unit)}
    {tx tx' : Tx} {u : Unit} (h : hideFor row origin hide tx = .ok (u, tx')) :
    tx'.life = tx.life ∧ (¬ Hides row hide ∧ tx' = tx ∨ tx'.clientChangeId = none) := by
  cases hide with
  | none =>
    cases h
    exact ⟨rfl, Or.inl ⟨id, rfl⟩⟩
  | some policy =>
    refine (hideResumed_ok h).imp_right (Or.imp_left ?_)
    exact And.imp_left not_not.mpr

theorem plan_rooms {r : EditRequest} {room : Text} {row : Inquiry} {plan : EditPlan}
    (hop : r.op = .mutateList .agentsessionRooms (.text room) true none)
    (h : r.plan row = .ok (some plan)) :
    plan.row.life = row.life ∧ plan.emission.kind = .column .agentsessionRooms := by
  unfold EditRequest.plan at h
  rw [hop] at h
  obtain ⟨working, _, h⟩ := except_bind_ok.mp h
  obtain ⟨normalized, _, h⟩ := except_bind_ok.mp h
  split at h
  next =>
    split at h
    next => cases h
    next =>
      cases h
      exact ⟨rfl, rfl⟩
  next => cases h

theorem putRow_sameLife {tx : Tx} {row old : Inquiry} (hrow : tx.inquiries.find? row.id = some old)
    (hlife : row.life = old.life) :
    ({ tx with toStore := tx.toStore.putRow row } : Tx).life = tx.life := by
  refine Life.ext ?_ rfl rfl
  show (tx.inquiries.rows.map _).map Inquiry.life = tx.inquiries.rows.map Inquiry.life
  rw [List.map_map]
  apply List.map_congr_left
  intro r hr
  rw [Function.comp_apply]
  unfold putRow
  split
  next hid =>
    have hsame : r = old := Option.some.inj ((Table.find?_eq_some.mpr ⟨hr, hid⟩).symm.trans hrow)
    rw [hsame, hlife]
  next => rfl

theorem joinRoom_sameLife (id : UUID) (origin : Origin) (room : Text) :
    Keeps SameLife (joinRoom id origin room) := by
  intro tx u tx' h
  obtain ⟨result, t, hedit, hret⟩ := bind_ok.mp h
  cases hret
  rcases editField_ok hedit with hstore | ⟨row, plan, changeId, hfind, hplan, happly⟩
  · unfold SameLife Tx.life
    rw [hstore]
  · obtain ⟨hlife, hkind⟩ := plan_rooms rfl hplan
    obtain ⟨_, t, hput, hrest⟩ := bind_ok.mp happly
    cases hput
    obtain ⟨emitted, t', hemit, hret⟩ := bind_ok.mp hrest
    cases hret
    have hid : plan.row.id = row.id := congrArg LifeRow.id hlife
    have hrow : tx.inquiries.find? plan.row.id = some row := by
      rw [hid, Table.find?_key hfind]
      exact hfind
    have hemitted : tx'.life = _ := emitChange_sameLife (hkind ▸ aside_column (by simp)) hemit
    exact hemitted.trans (putRow_sameLife hrow hlife)

/-- A key that is replayed names a row that was created. -/
theorem lookup_created {key : Option UUID} {kind : InquiryKind} {tx tx' : Tx} {id : UUID}
    (h : lookupExistingByChange key kind tx = .ok (some id, tx')) :
    (id, kind) ∈ tx.life.creations := by
  rw [lookupExistingByChange, get_bind_ok] at h
  cases hrow : key.bind tx.changeLog.find? with
  | none =>
    rw [hrow] at h
    cases h
  | some row =>
    rw [hrow] at h
    obtain ⟨hcreated, h⟩ := ensure_bind_ok.mp h
    obtain ⟨hkind, hret⟩ := ensure_bind_ok.mp h
    cases hret
    obtain ⟨_, _, hfind⟩ := Option.bind_eq_some_iff.mp hrow
    refine List.mem_filterMap.mpr ⟨row, (Table.find?_eq_some.mp hfind).1, ?_⟩
    rw [if_pos hcreated, hkind]

theorem lookup_unused {key : Option UUID} {kind : InquiryKind} {tx tx' : Tx}
    (h : lookupExistingByChange key kind tx = .ok (none, tx')) :
    key.bind tx.changeLog.find? = none := by
  rw [lookupExistingByChange, get_bind_ok] at h
  cases hrow : key.bind tx.changeLog.find? with
  | none => rfl
  | some row =>
    rw [hrow] at h
    obtain ⟨_, h⟩ := ensure_bind_ok.mp h
    obtain ⟨_, hret⟩ := ensure_bind_ok.mp h
    cases hret

/-- A start that mints its session has a key that is not in use, and appends one live row, under
an id that nothing names. -/
theorem submitOnConn_life {now : Nat} {body : SubmitAgentSession} {owner audience : Text}
    {origin : Origin} {tx tx' : Tx} {id : UUID}
    (h : submitOnConn now (body.item owner audience) origin tx = .ok (id, tx')) :
    (id, .agentSession) ∈ tx.life.creations ∧ tx'.life = tx.life ∨
      (body.idempotencyKey.or tx.clientChangeId).bind tx.changeLog.find? = none ∧
      tx.inquiries.find? id = none ∧ (∀ row ∈ endings tx.changeLog.rows, row.1 ≠ id) ∧
        tx'.life = { tx.life with
          rows := tx.life.rows ++ [⟨id, .agentSession, .text owner, .null, body.status⟩]
          creations := tx.life.creations ++ [(id, .agentSession)] } := by
  rw [submitOnConn, get_bind_ok] at h
  obtain ⟨existing, t, hlookup, hrest⟩ := bind_ok.mp h
  obtain rfl := lookupExistingByChange_ok hlookup
  cases existing with
  | some rowId =>
    obtain ⟨_, t', hcleared, hret⟩ := bind_ok.mp hrest
    cases hret
    cases hcleared
    exact Or.inl ⟨lookup_created hlookup, rfl⟩
  | none =>
    refine Or.inr ⟨lookup_unused hlookup, ?_⟩
    rw [insertSubmitted, ensure_bind_ok, get_bind_ok] at hrest
    obtain ⟨_, hbody⟩ := hrest
    obtain ⟨_, keyed, hslot, hrow⟩ := bind_ok.mp hbody
    obtain ⟨_, inserted, hinsert, hemit⟩ := bind_ok.mp hrow
    obtain ⟨cause, created, hcreated, hwire⟩ := bind_ok.mp hemit
    obtain ⟨_, wired, hwired, hclear⟩ := bind_ok.mp hwire
    obtain ⟨_, cleared, hcleared, hret⟩ := bind_ok.mp hclear
    cases hret
    cases hslot
    cases hwired
    cases hcleared
    rw [insertInquiry, get_bind_ok] at hinsert
    obtain ⟨inquiries, htable, hset⟩ := orThrow_bind_ok.mp hinsert
    cases hset
    obtain ⟨hnone, hrows⟩ := Table.insert?_eq_some.mp htable
    refine ⟨hnone, ?_, ?_⟩
    · intro row hrow hid
      obtain ⟨change, hchange, heq⟩ := List.mem_filterMap.mp hrow
      have hsubject : change.subjectId = row.1 := by
        split at heq
        next =>
          cases heq
          rfl
        next => cases heq
      have hmem : change.subjectId ∈
          t.inquiries.rows.map Inquiry.id ++ t.changeLog.rows.map Change.subjectId :=
        List.mem_append_right _ (List.mem_map.mpr ⟨change, hchange, rfl⟩)
      have hle := foldr_max_ge hmem
      rw [hsubject, hid, freshInquiryId] at hle
      omega
    · have hemitted : created.life = _ := emitCreated_ok rfl hcreated
      refine Eq.trans hemitted (Life.ext ?_ rfl rfl)
      show inquiries.rows.map Inquiry.life = t.inquiries.rows.map Inquiry.life ++ _
      rw [hrows, List.map_append]
      rfl

end Sessions

end Trackinizer
