import Trackinizer.RowLocks
import Trackinizer.BatchRetry

namespace Trackinizer.Locks

open Keyed Transact

/-- An edge has the row at one of its ends. -/
def Touches (key : EdgeKey) (id : UUID) : Prop :=
  key.fromId = id ∨ key.toId = id

/-- The row and its edges are as they were. -/
structure KeepsRow (id : UUID) (s s' : Store) : Prop where
  row : s'.inquiries.find? id = s.inquiries.find? id
  edges : ∀ key, Touches key id → s'.edges.find? key = s.edges.find? key

/-- The rows that were there, but for those of `p`, are kept, and every lock is as it was. -/
structure Spares (p : UUID → Prop) (s s' : Store) : Prop where
  kept : ∀ id row, ¬ p id → s.inquiries.find? id = some row → KeepsRow id s s'
  locked : ∀ id, isLocked s' id = isLocked s id
  stays : ∀ id row, s.inquiries.find? id = some row → ∃ row', s'.inquiries.find? id = some row'

theorem KeepsRow.trans {id : UUID} {s t s' : Store} (h : KeepsRow id s t) (h' : KeepsRow id t s') :
    KeepsRow id s s' :=
  ⟨h'.row.trans h.row, fun key hkey => (h'.edges key hkey).trans (h.edges key hkey)⟩

theorem Spares.refl (p : UUID → Prop) (s : Store) : Spares p s s :=
  ⟨fun _ _ _ _ => ⟨rfl, fun _ _ => rfl⟩, fun _ => rfl, fun _ row h => ⟨row, h⟩⟩

theorem Spares.trans {p : UUID → Prop} {s t s' : Store} (h : Spares p s t) (h' : Spares p t s') :
    Spares p s s' := by
  refine ⟨?_, fun id => (h'.locked id).trans (h.locked id), ?_⟩
  · intro id row hp hrow
    have hfirst := h.kept id row hp hrow
    exact hfirst.trans (h'.kept id row hp (hfirst.row.trans hrow))
  · intro id row hrow
    obtain ⟨row', hrow'⟩ := h.stays id row hrow
    exact h'.stays id row' hrow'

instance (p : UUID → Prop) : IsPreorder Tx fun tx tx' => Spares p tx.toStore tx'.toStore where
  refl tx := Spares.refl p tx.toStore
  trans _ _ _ h h' := h.trans h'

/-- What may be touched need be named only of rows that were there. -/
theorem Spares.mono {p q : UUID → Prop} {s s' : Store} (h : Spares p s s')
    (hpq : ∀ id row, s.inquiries.find? id = some row → p id → q id) : Spares q s s' :=
  ⟨fun id row hq hrow => h.kept id row (fun hp => hq (hpq id row hrow hp)) hrow, h.locked, h.stays⟩

/-- The log has no part in it. -/
theorem Spares.congr {p : UUID → Prop} {s s' s'' : Store} (h : Spares p s s')
    (hinquiries : s''.inquiries = s'.inquiries) (hedges : s''.edges = s'.edges) :
    Spares p s s'' := by
  refine ⟨?_, ?_, ?_⟩
  · intro id row hp hrow
    have hkept := h.kept id row hp hrow
    exact ⟨by rw [hinquiries, hkept.row], fun key hkey => by rw [hedges, hkept.edges key hkey]⟩
  · intro id
    rw [← h.locked id, isLocked, isLocked, hinquiries]
  · rw [hinquiries]
    exact h.stays

/-- A rewrite of rows that changes no lock spares the rows it leaves. -/
theorem spares_update {p : UUID → Prop} {s : Store} {f : Inquiry → Inquiry}
    {hf : ∀ r, (f r).id = r.id}
    (hkeep : ∀ row, ¬ p row.id → s.inquiries.find? row.id = some row → f row = row)
    (hlocked : ∀ row, s.inquiries.find? row.id = some row → (f row).locked = row.locked) :
    Spares p s { s with inquiries := s.inquiries.update f hf } := by
  have hfind : ∀ {id row}, s.inquiries.find? id = some row →
      s.inquiries.find? row.id = some row := by
    intro id row hrow
    rwa [Table.find?_key hrow]
  refine ⟨?_, ?_, ?_⟩
  · intro id row hp hrow
    refine ⟨?_, fun _ _ => rfl⟩
    have hid : row.id = id := Table.find?_key hrow
    rw [Table.find?_update, hrow, Option.map_some, hkeep row (hid ▸ hp) (hfind hrow)]
  · intro id
    rw [isLocked, isLocked, Table.find?_update]
    cases hrow : s.inquiries.find? id with
    | none => rfl
    | some row => rw [Option.map_some, Option.any_some, Option.any_some, hlocked row (hfind hrow)]
  · intro id row hrow
    exact ⟨f row, by rw [Table.find?_update, hrow, Option.map_some]⟩

theorem spares_edges {p : UUID → Prop} {key : EdgeKey} (hfrom : p key.fromId) (hto : p key.toId)
    {tx : Tx} {edges : Table Edge.toEdgeKey} (h : OnlyAt key tx.edges edges) :
    Spares p tx.toStore { tx.toStore with edges := edges } := by
  refine ⟨?_, fun _ => rfl, fun _ row hrow => ⟨row, hrow⟩⟩
  intro id row hp _
  refine ⟨rfl, ?_⟩
  intro k hk
  apply h
  rintro rfl
  rcases hk with rfl | rfl
  · exact hp hfrom
  · exact hp hto

section Bodies

variable {p : UUID → Prop}

/-- An emission charges its own subject, and one without a cost leaves that too. -/
theorem emitRow_spares {e : Emission}
    (h : e.marginalCost.add e.costDelta = {} ∨ p e.subjectId) :
    Keeps (fun tx tx' => Spares p tx.toStore tx'.toStore) (emitRow e) := by
  intro tx r tx' hrun
  obtain ⟨row, _, _, _, _, hcase⟩ := emitRow_ok hrun
  rcases hcase with ⟨_, hrecorded⟩ | ⟨_, hreplayed⟩
  · have hcharged : Spares p tx.toStore { tx.toStore with inquiries := tx'.inquiries } := by
      have hcharged := hrecorded.charged
      unfold Charged at hcharged
      split at hcharged
      next =>
        rw [hcharged]
        exact Spares.refl p tx.toStore
      next subject hsubject =>
        obtain ⟨cost, hcost, hinquiries⟩ := hcharged
        rw [hinquiries]
        refine spares_update ?_ ?_
        · intro row hp hrow
          unfold chargeRow
          split
          next hid =>
            rcases h with hzero | hsubj
            · rw [hid, hsubject] at hrow
              cases hrow
              rw [hzero, MarginalCost.charge?_zero] at hcost
              cases hcost
              rfl
            · exact absurd (hid ▸ hsubj) hp
          next => rfl
        · intro row _
          unfold chargeRow
          split <;> rfl
    exact hcharged.congr rfl hrecorded.edges
  · rw [hreplayed.unchanged]
    exact Spares.refl p tx.toStore

theorem dependencyAlert_spares (cur : Hop) (edge : Edge) :
    Keeps (fun tx tx' => Spares p tx.toStore tx'.toStore) (emitRow (dependencyAlert cur edge)) :=
  emitRow_spares (Or.inl (dependencyAlert_quiet cur edge).uncharged)

theorem emitRow_view_spares (v : EdgeView) (kind : ChangeKind) (origin : Origin)
    (causedBy : Option UUID) (old new : Option Annotations) (hcreated : kind ≠ .created)
    (hcost : kind ≠ .marginalCost) :
    Keeps (fun tx tx' => Spares p tx.toStore tx'.toStore)
      (emitRow (v.emission kind origin causedBy old new)) :=
  emitRow_spares (Or.inl (v.emission_quiet hcreated hcost).uncharged)

theorem emitChange_spares {e : Emission} (cascade : Bool)
    (h : e.marginalCost.add e.costDelta = {} ∨ p e.subjectId) :
    Keeps (fun tx tx' => Spares p tx.toStore tx'.toStore) (emitChange e cascade) :=
  emitChange_rule dependencyAlert_spares (emitRow_spares h) cascade

/-- A write of an edge between two rows of `p` spares the others. -/
theorem pair_spares {key : EdgeKey} (hfrom : p key.fromId) (hto : p key.toId) (k : EdgeKey)
    (hpair : EdgeKey.SamePair k key) (tx : Tx) (edges : Table Edge.toEdgeKey)
    (h : OnlyAt k tx.edges edges) : Spares p tx.toStore { tx.toStore with edges := edges } := by
  rcases hpair with ⟨hf, ht⟩ | ⟨hf, ht⟩
  · exact spares_edges (hf ▸ hfrom) (ht ▸ hto) h
  · exact spares_edges (hf ▸ hto) (ht ▸ hfrom) h

theorem addEdge_spares {key : EdgeKey} (args : EdgeArgs) (origin : Origin) (hfrom : p key.fromId)
    (hto : p key.toId) :
    Keeps (fun tx tx' => Spares p tx.toStore tx'.toStore) (addEdge key args origin) :=
  addEdge_rule emitRow_view_spares dependencyAlert_spares (pair_spares hfrom hto) args origin

theorem setEdgeAnnotationOnConn_spares {key : EdgeKey} (edit : AnnotationEdit) (origin : Origin)
    (requireExisting : Bool) (hfrom : p key.fromId) (hto : p key.toId) :
    Keeps (fun tx tx' => Spares p tx.toStore tx'.toStore)
      (setEdgeAnnotationOnConn key edit origin requireExisting) :=
  setEdgeAnnotationOnConn_rule emitRow_view_spares dependencyAlert_spares edit origin
    requireExisting (pair_spares hfrom hto key (.refl key))

theorem removeEdge_spares {key : EdgeKey} (origin : Origin) (hfrom : p key.fromId)
    (hto : p key.toId) :
    Keeps (fun tx tx' => Spares p tx.toStore tx'.toStore) (removeEdge key origin) :=
  removeEdge_rule emitRow_view_spares dependencyAlert_spares origin
    (pair_spares hfrom hto key (.refl key))

theorem wire_spares {w : Wiring} {rowId : UUID} (kind : InquiryKind) (origin : Origin)
    (cause : UUID) (hrow : p rowId) (hto : p w.toId) :
    Keeps (fun tx tx' => Spares p tx.toStore tx'.toStore) (w.wire rowId kind origin cause) := by
  have hfrom : p (wiredKey rowId w.toId w.edgeKind w.citePeerAsFrom).fromId := by
    unfold wiredKey
    split
    · exact hto
    · exact hrow
  have hend : p (wiredKey rowId w.toId w.edgeKind w.citePeerAsFrom).toId := by
    unfold wiredKey
    split
    · exact hrow
    · exact hto
  apply keeps_bind (insertEdgeAndAudit_rule emitRow_view_spares dependencyAlert_spares _ _ _ _ _ _ _
    _ _ _ (pair_spares hfrom hend))
  intro _
  exact keeps_pure _

/-- An edit writes its own row, and leaves its lock. -/
theorem applyPlan_spares {r : EditRequest} {row : Inquiry} {plan : EditPlan} {tx tx' : Tx}
    {changeId : UUID} (hplan : r.plan row = .ok (some plan)) (hlocked : plan.row.locked = row.locked)
    (hrow : tx.inquiries.find? row.id = some row) (hp : p row.id)
    (h : applyPlan plan tx = .ok (changeId, tx')) : Spares p tx.toStore tx'.toStore := by
  have hspec := EditRequest.plan_spec hplan
  obtain ⟨_, t, hput, hrest⟩ := bind_ok.mp h
  cases hput
  obtain ⟨emitted, t, hemit, hret⟩ := bind_ok.mp hrest
  cases hret
  have hput : Spares p tx.toStore (tx.toStore.putRow plan.row) := by
    refine spares_update ?_ ?_
    · intro other hother hfind
      unfold putRow
      split
      next hid => exact absurd (by rwa [hid, hspec.id]) hother
      next => rfl
    · intro other hfind
      unfold putRow
      split
      next hid =>
        rw [hid, hspec.id, hrow] at hfind
        cases hfind
        exact hlocked
      next => rfl
  exact hput.trans (emitChange_spares true (Or.inr (by rwa [hspec.subject])) hemit)

end Bodies

theorem plan_locked {r : EditRequest} {row : Inquiry} {plan : EditPlan}
    (h : r.plan row = .ok (some plan)) : plan.row.locked = row.locked := by
  unfold EditRequest.plan at h
  split at h
  next column value =>
    dsimp only at h
    split at h
    next => cases h
    next =>
      cases h
      rfl
  next column item adding _ =>
    obtain ⟨working, _, h⟩ := except_bind_ok.mp h
    obtain ⟨normalized, _, h⟩ := except_bind_ok.mp h
    split at h
    next =>
      split at h
      next => cases h
      next =>
        cases h
        rfl
    next => cases h
  next delta =>
    split at h
    next => cases h
    next =>
      cases h
      rfl

section Submits

variable {now : Nat} {item : SubmitItem} {items : List SubmitItem} {origin : Origin} {tx tx' : Tx}
  {id : UUID} {ids : List UUID}

theorem find?_freshInquiryId (tx : Tx) : tx.inquiries.find? (freshInquiryId tx) = none := by
  rw [Table.find?_eq_none]
  intro row hrow hid
  have hmem : row.id ∈ tx.inquiries.rows.map Inquiry.id ++ tx.changeLog.rows.map Change.subjectId :=
    List.mem_append_left _ (List.mem_map_of_mem hrow)
  have hle := foldr_max_ge hmem
  rw [hid, freshInquiryId] at hle
  omega

/-- The rows a submit wires are rows that its body references. -/
theorem mem_wiring {w : Wiring} (h : w ∈ item.wiring) : w.toId ∈ item.referencedIds := by
  unfold SubmitItem.wiring at h
  simp only [SubmitItem.referencedIds, List.mem_append, List.mem_map]
  split at h
  next =>
    rcases List.mem_append.mp h with h | h
    · obtain ⟨n, hn, rfl⟩ := List.mem_map.mp h
      exact Or.inl (Or.inl (Or.inl (Or.inl ⟨n, hn, rfl⟩)))
    · obtain ⟨required, hid, rfl⟩ := List.mem_map.mp h
      exact Or.inl (Or.inl (Or.inl (Or.inr hid)))
  next =>
    rcases List.mem_append.mp h with h | h
    · obtain ⟨c, hc, rfl⟩ := List.mem_map.mp h
      exact Or.inl (Or.inr ⟨c, hc, rfl⟩)
    · obtain ⟨c, hc, rfl⟩ := List.mem_map.mp h
      exact Or.inr ⟨c, hc, rfl⟩
  next => cases h

theorem wirings_spares {p : UUID → Prop} {wirings : List Wiring} {rowId : UUID}
    (kind : InquiryKind) (cause : UUID) (hrow : p rowId) (hto : ∀ w ∈ wirings, p w.toId) :
    Keeps (fun tx tx' => Spares p tx.toStore tx'.toStore)
      (wirings.forM fun w => w.wire rowId kind origin cause) := by
  induction wirings with
  | nil => exact keeps_pure _
  | cons w wirings ih =>
    apply keeps_bind (wire_spares kind origin cause hrow (hto w List.mem_cons_self))
    intro _
    exact ih fun w hw => hto w (List.mem_cons_of_mem _ hw)

/-- A new row is unlocked, and takes no edge from the others. -/
theorem insertInquiry_spares {p : UUID → Prop} {row : Inquiry} {u : Unit}
    (h : insertInquiry row tx = .ok (u, tx')) (hlocked : row.locked = false) :
    Spares p tx.toStore tx'.toStore ∧ tx'.inquiries.find? row.id = some row ∧
      tx'.changeLog = tx.changeLog := by
  rw [insertInquiry, get_bind_ok, orThrow_bind_ok] at h
  obtain ⟨inquiries, hinsert, hset⟩ := h
  cases hset
  have hnew := (Table.insert?_eq_some.mp hinsert).1
  have hold : ∀ {id other}, tx.inquiries.find? id = some other →
      inquiries.find? id = some other := by
    intro id other hother
    refine (Table.find?_insert?_ne hinsert ?_).trans hother
    rintro rfl
    rw [hnew] at hother
    cases hother
  refine ⟨⟨?_, ?_, ?_⟩, Table.find?_insert?_self hinsert, rfl⟩
  · intro id other _ hother
    exact ⟨(hold hother).trans hother.symm, fun _ _ => rfl⟩
  · intro id
    show (inquiries.find? id).any Inquiry.locked = (tx.inquiries.find? id).any Inquiry.locked
    by_cases hsame : id = row.id
    · rw [hsame, Table.find?_insert?_self hinsert, hnew, Option.any_some, hlocked, Option.any_none]
    · rw [Table.find?_insert?_ne hinsert hsame]
  · intro id other hother
    exact ⟨other, hold hother⟩

/-- A submit spares every row but those it references; its own is new, and the one it logs as
created. -/
theorem insertSubmitted_spares (h : insertSubmitted now item origin tx = .ok (id, tx')) :
    Spares (· ∈ item.referencedIds) tx.toStore tx'.toStore ∧ tx.inquiries.find? id = none ∧
      ∃ rows, tx'.changeLog.rows = tx.changeLog.rows ++ rows ∧
        ∀ row ∈ rows, row.kind = .created → row.subjectId = id := by
  rw [insertSubmitted, ensure_bind_ok, get_bind_ok] at h
  obtain ⟨_, hbody⟩ := h
  obtain ⟨_, keyed, hslot, hrow⟩ := bind_ok.mp hbody
  obtain ⟨_, inserted, hinsert, hemit⟩ := bind_ok.mp hrow
  obtain ⟨cause, created, hcreated, hwire⟩ := bind_ok.mp hemit
  obtain ⟨_, wired, hwired, hclear⟩ := bind_ok.mp hwire
  obtain ⟨_, cleared, hcleared, hret⟩ := bind_ok.mp hclear
  cases hret
  cases hslot
  cases hcleared
  let touched := fun r => r ∈ item.referencedIds ∨ r = freshInquiryId tx
  have hfresh := find?_freshInquiryId tx
  obtain ⟨hinserted, hthere, hlog⟩ := insertInquiry_spares (p := touched) hinsert rfl
  have hemitted := emitChange_spares (p := touched) true (Or.inr (Or.inr rfl)) hcreated
  have hwirings := wirings_spares (p := touched) item.kind cause.changeId (Or.inr rfl)
    (fun w hw => Or.inl (mem_wiring hw)) hwired
  have hall : Spares touched tx.toStore wired.toStore :=
    hinserted.trans (hemitted.trans hwirings)
  have hposted : Posts (fun row => row.kind = .created → row.subjectId = freshInquiryId tx)
      inserted created := by
    refine emitChange_posts hcreated (Or.inr ?_) ?_ ?_
    · rw [hthere]
      rfl
    · intro row hwrites _ _
      exact hwrites.subject
    · intro row hquiet hkind
      exact absurd hkind hquiet.created
  have hsilent : Silent created wired := keeps_forM (fun w => w.wire_silent _ _ _ _) _ hwired
  obtain ⟨rows, hrows, hp⟩ := hposted.log
  obtain ⟨more, hmore, hquiet⟩ := hsilent.log
  refine ⟨hall.mono ?_, hfresh, rows ++ more, ?_, ?_⟩
  · rintro id row hthere (hid | rfl)
    · exact hid
    · rw [hfresh] at hthere
      cases hthere
  · show wired.changeLog.rows = _
    rw [hmore, hrows, hlog, List.append_assoc]
  · intro row hrow hkind
    rcases List.mem_append.mp hrow with hrow | hrow
    · exact hp row hrow hkind
    · exact absurd hkind (hquiet row hrow).created

theorem replayedRow_eq_some {log : Table Change.id} {key : Option UUID} :
    replayedRow log key = some id ↔
      ∃ k row, key = some k ∧ log.find? k = some row ∧ row.kind = .created ∧ row.subjectId = id := by
  unfold replayedRow
  constructor
  · intro h
    split at h
    next row hrow =>
      split at h
      next hkind =>
        obtain ⟨k, hk, hfind⟩ := Option.bind_eq_some_iff.mp hrow
        exact ⟨k, row, hk, hfind, hkind, Option.some.inj h⟩
      next => cases h
    next => cases h
  · rintro ⟨k, row, rfl, hfind, hkind, rfl⟩
    rw [Option.bind_some, hfind]
    exact if_pos hkind

/-- A submit returns a row that was not there, or the one that its key replays. -/
theorem submitOnConn_spares (h : submitOnConn now item origin tx = .ok (id, tx')) :
    Spares (· ∈ item.referencedIds) tx.toStore tx'.toStore ∧
      (tx.inquiries.find? id = none ∨
        replayedRow tx.changeLog (item.idempotencyKey.or tx.clientChangeId) = some id) ∧
      ∃ rows, tx'.changeLog.rows = tx.changeLog.rows ++ rows ∧
        ∀ row ∈ rows, row.kind = .created → row.subjectId = id ∧ tx.inquiries.find? id = none := by
  rw [submitOnConn, get_bind_ok] at h
  obtain ⟨existing, t, hlookup, hrest⟩ := bind_ok.mp h
  obtain rfl := lookupExistingByChange_ok hlookup
  cases existing with
  | none =>
    obtain ⟨hspares, hfresh, rows, hrows, hcreated⟩ := insertSubmitted_spares hrest
    exact ⟨hspares, Or.inl hfresh, rows, hrows, fun row hrow hkind =>
      ⟨hcreated row hrow hkind, hfresh⟩⟩
  | some rowId =>
    obtain ⟨_, t', hcleared, hret⟩ := bind_ok.mp hrest
    cases hret
    cases hcleared
    refine ⟨Spares.refl _ _, Or.inr ?_, [], by simp, by simp⟩
    cases hkey : item.idempotencyKey.or t.clientChangeId with
    | none =>
      rw [hkey, lookupExistingByChange, get_bind_ok] at hlookup
      cases hlookup
    | some key =>
      rw [hkey] at hlookup
      obtain ⟨row, hfind, hkind, _, hsubject⟩ := lookupExistingByChange_found hlookup
      exact replayedRow_eq_some.mpr ⟨key, row, rfl, hfind, hkind, hsubject⟩

theorem itemKey_succ (slot : Option UUID) (index : Nat) :
    itemKey slot (item :: items) (index + 1) = itemKey none items index := by
  unfold itemKey
  rw [List.getElem?_cons_succ]
  cases items[index]? with
  | none => rfl
  | some other => simp

theorem submitItems_spares (h : submitItems now origin items tx = .ok (ids, tx')) :
    Spares (· ∈ items.flatMap SubmitItem.referencedIds) tx.toStore tx'.toStore ∧
      ∀ index id, ids[index]? = some id → tx.inquiries.find? id = none ∨
        replayedRow tx.changeLog (itemKey tx.clientChangeId items index) = some id := by
  induction items generalizing tx ids with
  | nil =>
    cases h
    exact ⟨Spares.refl _ _, fun index id hid => by simp at hid⟩
  | cons item items ih =>
    obtain ⟨id, t, hfirst, hrest⟩ := bind_ok.mp h
    obtain ⟨ids', t', hitems, hret⟩ := bind_ok.mp hrest
    cases hret
    have hslot := submitOnConn_slot hfirst
    obtain ⟨hspares, hid, rows, hrows, hcreated⟩ := submitOnConn_spares hfirst
    obtain ⟨hlater, hids⟩ := ih hitems
    refine ⟨?_, ?_⟩
    · have hhead := hspares.mono (q := (· ∈ (item :: items).flatMap SubmitItem.referencedIds))
        fun r _ _ hr => List.mem_append_left _ hr
      have htail := hlater.mono (q := (· ∈ (item :: items).flatMap SubmitItem.referencedIds))
        fun r _ _ hr => List.mem_append_right _ hr
      exact hhead.trans htail
    · intro index other hother
      cases index with
      | zero =>
        cases hother
        exact hid
      | succ index =>
        rcases hids index other hother with hnew | hreplayed
        · left
          cases hold : tx.inquiries.find? other with
          | none => rfl
          | some row =>
            obtain ⟨row', hrow'⟩ := hspares.stays other row hold
            rw [hrow'] at hnew
            cases hnew
        · rw [hslot] at hreplayed
          obtain ⟨key, row, hkey, hfind, hkind, hsubject⟩ := replayedRow_eq_some.mp hreplayed
          cases hold : tx.changeLog.find? key with
          | some row' =>
            right
            have hsame := Table.find?_some_of_append hrows hold
            rw [hfind] at hsame
            cases hsame
            rw [itemKey_succ]
            exact replayedRow_eq_some.mpr ⟨key, row, hkey, hold, hkind, hsubject⟩
          | none =>
            left
            have hmem := Table.mem_of_find? hfind
            rw [hrows] at hmem
            rcases List.mem_append.mp hmem with hmem | hmem
            · exact absurd (Table.find?_key hfind) (Table.find?_eq_none.mp hold row hmem)
            · obtain ⟨hid', hnew⟩ := hcreated row hmem hkind
              rw [← hsubject, hid']
              exact hnew

theorem batchEdges_spares {p : UUID → Prop} {edges : List BatchEdge}
    (hends : ∀ edge ∈ edges, ∀ endpoint ∈ [edge.source, edge.target], ∀ id,
      endpoint.resolve ids = .ok id → p id) :
    Keeps (fun tx tx' => Spares p tx.toStore tx'.toStore) (edges.forM (BatchEdge.add ids origin)) := by
  induction edges with
  | nil => exact keeps_pure _
  | cons edge edges ih =>
    have hfirst : Keeps (fun tx tx' : Tx => Spares p tx.toStore tx'.toStore)
        (edge.add ids origin) := by
      intro tx u tx' h
      rw [BatchEdge.add, fromExcept_bind_ok] at h
      obtain ⟨fromId, hfrom, htarget⟩ := h
      obtain ⟨toId, hto, hrest⟩ := fromExcept_bind_ok.mp htarget
      obtain ⟨_, t, hadd, hret⟩ := bind_ok.mp hrest
      cases hret
      have hedge := hends edge List.mem_cons_self
      exact addEdge_spares edge.args origin (hedge edge.source (by simp) fromId hfrom)
        (hedge edge.target (by simp) toId hto) hadd
    apply keeps_bind hfirst
    intro _
    exact ih fun edge hedge => hends edge (List.mem_cons_of_mem _ hedge)

/-- An endpoint is a row of the body, a new row, or one that an item replays. -/
theorem resolve_known {edges : List BatchEdge} {edge : BatchEdge} {endpoint : BatchEndpoint}
    (hedge : edge ∈ edges) (hend : endpoint ∈ [edge.source, edge.target])
    (hid : endpoint.resolve ids = .ok id) (hids : ∀ index id, ids[index]? = some id →
      tx.inquiries.find? id = none ∨
        replayedRow tx.changeLog (itemKey tx.clientChangeId items index) = some id) :
    id ∈ edges.flatMap BatchEdge.referencedIds ∨ tx.inquiries.find? id = none ∨
      id ∈ replayedEnds tx.toStore tx.clientChangeId (.graph (.submitBatch now items edges origin))
    := by
  cases endpoint with
  | row named =>
    cases hid
    left
    exact List.mem_flatMap.mpr ⟨edge, hedge, List.mem_filterMap.mpr ⟨_, hend, rfl⟩⟩
  | item index =>
    right
    rw [BatchEndpoint.resolve] at hid
    cases hget : ids[index]? with
    | none =>
      rw [hget] at hid
      cases hid
    | some found =>
      rw [hget] at hid
      cases hid
      rcases hids index _ hget with hnew | hreplayed
      · exact Or.inl hnew
      · right
        exact List.mem_flatMap.mpr ⟨edge, hedge, List.mem_filterMap.mpr ⟨_, hend, hreplayed⟩⟩

theorem submitBatch_spares {edges : List BatchEdge}
    (h : submitBatch now items edges origin tx = .ok (ids, tx')) :
    Spares (fun r => r ∈ items.flatMap SubmitItem.referencedIds ++
        edges.flatMap BatchEdge.referencedIds ∨
      r ∈ replayedEnds tx.toStore tx.clientChangeId (.graph (.submitBatch now items edges origin)))
      tx.toStore tx'.toStore := by
  obtain ⟨ids', t, hitems, hrest⟩ := bind_ok.mp h
  obtain ⟨_, t', hedges, hret⟩ := bind_ok.mp hrest
  cases hret
  obtain ⟨hspares, hids⟩ := submitItems_spares hitems
  let touched := fun r => r ∈ items.flatMap SubmitItem.referencedIds ∨
    r ∈ edges.flatMap BatchEdge.referencedIds ∨ tx.inquiries.find? r = none ∨
      r ∈ replayedEnds tx.toStore tx.clientChangeId (.graph (.submitBatch now items edges origin))
  have hadded : Spares touched t.toStore tx'.toStore := by
    refine batchEdges_spares ?_ hedges
    intro edge hedge endpoint hend id hid
    exact Or.inr (resolve_known hedge hend hid hids)
  have hall := (hspares.mono (q := touched) fun _ _ _ hr => Or.inl hr).trans hadded
  refine hall.mono ?_
  rintro r row hrow (hr | hr | hr | hr)
  · exact Or.inl (List.mem_append_left _ hr)
  · exact Or.inl (List.mem_append_right _ hr)
  · rw [hr] at hrow
    cases hrow
  · exact Or.inr hr

end Submits

section Writes

variable {P : Type} {check : Inquiry → Except StoreError Unit} {s : Store} {slot : Option UUID}
  {tx' : Tx} {u : Unit}

theorem editField_spares {targetId : UUID} {r : EditRequest} {tx : Tx} {result : Option UUID}
    (h : editField check targetId r tx = .ok (result, tx')) :
    Spares (· = targetId) tx.toStore tx'.toStore := by
  rcases editField_ok h with hstore | ⟨row, plan, changeId, hrow, hplan, happly⟩
  · rw [hstore]
    exact Spares.refl _ _
  · have hid : row.id = targetId := Table.find?_key hrow
    exact applyPlan_spares hplan (plan_locked hplan) (hid.symm ▸ hrow) hid happly

theorem setCostAxis_spares {targetId : UUID} {axis : CostAxis} {value : ℚ} {origin : Origin}
    {tx : Tx} {result : Option UUID}
    (h : setCostAxis targetId axis value origin tx = .ok (result, tx')) :
    Spares (· = targetId) tx.toStore tx'.toStore := by
  rcases setCostAxis_ok h with hstore | ⟨row, emitted, _, hrow, hemit⟩
  · rw [hstore]
    exact Spares.refl _ _
  · have hid : row.id = targetId := Table.find?_key hrow
    exact emitChange_spares (p := (· = targetId)) true (Or.inr hid) hemit

/-- A transaction names rows that its request names. -/
theorem opRows_subset {request : Request P} {op : LedgerOp} (hop : op ∈ request.writes) :
    opRows op ⊆ request.rows := by
  cases request with
  | addEdges edges =>
    obtain ⟨edge, hedge, rfl⟩ := List.mem_map.mp hop
    intro id hid
    exact List.mem_flatMap.mpr ⟨edge, hedge, hid⟩
  | edit targetId r =>
    cases List.mem_singleton.mp hop
    exact List.Subset.refl _
  | setCostAxis targetId axis value origin =>
    cases List.mem_singleton.mp hop
    exact List.Subset.refl _
  | addEdge edge =>
    cases List.mem_singleton.mp hop
    exact List.Subset.refl _
  | annotate key change origin =>
    cases List.mem_singleton.mp hop
    exact List.Subset.refl _
  | removeEdge key origin =>
    cases List.mem_singleton.mp hop
    exact List.Subset.refl _
  | submit now item origin =>
    cases List.mem_singleton.mp hop
    exact List.Subset.refl _
  | submitBatch now items edges origin =>
    cases List.mem_singleton.mp hop
    exact List.Subset.refl _
  | claim request => cases hop

/-- A transaction of a request spares the rows that it does not name, but for those that a batch
edge names by a replayed item. -/
theorem write_spares {request : Request P} {op : LedgerOp} (hop : op ∈ request.writes)
    (h : op.run check { s with clientChangeId := slot } = .ok (u, tx')) :
    Spares (fun r => r ∈ opRows op ∨ r ∈ replayedEnds s slot op) s tx'.toStore := by
  cases request with
  | edit targetId r =>
    cases List.mem_singleton.mp hop
    obtain ⟨_, t, hedit, hret⟩ := bind_ok.mp h
    cases hret
    exact (editField_spares hedit).mono fun id _ _ hid => Or.inl (List.mem_singleton.mpr hid)
  | setCostAxis targetId axis value origin =>
    cases List.mem_singleton.mp hop
    obtain ⟨_, t, hset, hret⟩ := bind_ok.mp h
    cases hret
    exact (setCostAxis_spares hset).mono fun id _ _ hid => Or.inl (List.mem_singleton.mpr hid)
  | addEdge edge =>
    cases List.mem_singleton.mp hop
    obtain ⟨_, t, hadd, hret⟩ := bind_ok.mp h
    cases hret
    exact addEdge_spares _ _ (Or.inl (by simp [opRows])) (Or.inl (by simp [opRows])) hadd
  | addEdges edges =>
    obtain ⟨edge, hedge, rfl⟩ := List.mem_map.mp hop
    obtain ⟨_, t, hadd, hret⟩ := bind_ok.mp h
    cases hret
    exact addEdge_spares _ _ (Or.inl (by simp [opRows])) (Or.inl (by simp [opRows])) hadd
  | annotate key change origin =>
    cases List.mem_singleton.mp hop
    obtain ⟨_, t, hset, hret⟩ := bind_ok.mp h
    cases hret
    exact setEdgeAnnotationOnConn_spares _ _ _ (Or.inl (by simp [opRows]))
      (Or.inl (by simp [opRows])) hset
  | removeEdge key origin =>
    cases List.mem_singleton.mp hop
    obtain ⟨_, t, hremove, hret⟩ := bind_ok.mp h
    cases hret
    exact removeEdge_spares _ (Or.inl (by simp [opRows])) (Or.inl (by simp [opRows])) hremove
  | submit now item origin =>
    cases List.mem_singleton.mp hop
    obtain ⟨_, t, hsubmit, hret⟩ := bind_ok.mp h
    cases hret
    exact (submitOnConn_spares hsubmit).1.mono fun _ _ _ hr => Or.inl hr
  | submitBatch now items edges origin =>
    cases List.mem_singleton.mp hop
    obtain ⟨_, t, hsubmit, hret⟩ := bind_ok.mp h
    cases hret
    exact submitBatch_spares hsubmit
  | claim request => cases hop

/-- A claim writes the issue it took. -/
theorem claimBody_spares {request : ClaimRequest P} {issue : UUID} {tx : Tx}
    (h : claimBody request issue tx = .ok (u, tx')) :
    Spares (· = issue) tx.toStore tx'.toStore := by
  obtain ⟨_, t, hown, hrest⟩ := bind_ok.mp h
  cases hown
  obtain ⟨_, t', hemit, hret⟩ := bind_ok.mp hrest
  cases hret
  have howned : Spares (· = issue) tx.toStore { tx.toStore with
      inquiries := tx.inquiries.update (ownRow issue request.owner)
        (ownRow_id issue request.owner) } := by
    refine spares_update ?_ ?_
    · intro row hne _
      exact if_neg hne
    · intro row _
      unfold ownRow
      split <;> rfl
  have hemitted := emitChange_spares (p := (· = issue)) true (Or.inr rfl) hemit
  exact howned.trans hemitted

end Writes

end Trackinizer.Locks
