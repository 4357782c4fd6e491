import Trackinizer.BatchOrder
import Trackinizer.CostRuns

namespace Trackinizer

open Keyed Transact

/-- The log has the key as the `created` event of the row. -/
def CreatedUnder (log : Table Change.id) (key : UUID) (kind : InquiryKind) (id : UUID) : Prop :=
  ∃ row, log.find? key = some row ∧ row.kind = .created ∧ row.subjectKind = kind ∧
    row.subjectId = id

/-- Each item of a batch has a key when its turn comes: its own, or for the first one what is
in the change-id slot. -/
def KeyedBatch : Option UUID → List SubmitItem → Prop
  | _, [] => True
  | slot, item :: items => (item.idempotencyKey.or slot).isSome = true ∧ KeyedBatch none items

/-- The log has the items' keys as the `created` events of the rows of these ids. -/
def NamesBatch (log : Table Change.id) : Option UUID → List SubmitItem → List UUID → Prop
  | _, [], ids => ids = []
  | _, _ :: _, [] => False
  | slot, item :: items, id :: ids =>
      (∃ key, item.idempotencyKey.or slot = some key ∧ CreatedUnder log key item.kind id) ∧
        NamesBatch log none items ids

/-- What a retry does to the store it finds: it adds no row and audits none as created. -/
structure CreatesNothing (s s' : Store) : Prop where
  rows : s'.inquiries.rows.map Inquiry.id = s.inquiries.rows.map Inquiry.id
  log : ∃ rows, s'.changeLog.rows = s.changeLog.rows ++ rows ∧ ∀ row ∈ rows, row.kind ≠ .created

variable {log log' : Table Change.id} {key id : UUID} {kind : InquiryKind} {slot : Option UUID}
  {item : SubmitItem} {items : List SubmitItem} {ids : List UUID} {now : Nat} {origin : Origin}
  {tx tx' : Tx} {edges : List BatchEdge}

theorem CreatedUnder.append {rows : List Change} (h : CreatedUnder log key kind id)
    (hrows : log'.rows = log.rows ++ rows) : CreatedUnder log' key kind id := by
  obtain ⟨row, hfind, hrow⟩ := h
  exact ⟨row, Table.find?_some_of_append hrows hfind, hrow⟩

theorem NamesBatch.append {rows : List Change} (h : NamesBatch log slot items ids)
    (hrows : log'.rows = log.rows ++ rows) : NamesBatch log' slot items ids := by
  induction items generalizing slot ids with
  | nil => exact h
  | cons item items ih =>
    cases ids with
    | nil => exact h
    | cons id ids =>
      obtain ⟨⟨key, hkey, hnames⟩, hrest⟩ := h
      exact ⟨⟨key, hkey, hnames.append hrows⟩, ih hrest⟩

/-- A submit with a key leaves the key as the event its row was created by. -/
theorem insertSubmitted_names (h : insertSubmitted now item origin tx = .ok (id, tx'))
    (hkey : item.idempotencyKey.or tx.clientChangeId = some key) :
    CreatedUnder tx'.changeLog key item.kind id := by
  rw [insertSubmitted, ensure_bind_ok, get_bind_ok] at h
  obtain ⟨_, hbody⟩ := h
  obtain ⟨_, keyed, hslot, hrow⟩ := bind_ok.mp hbody
  obtain ⟨_, inserted, hinsert, hemit⟩ := bind_ok.mp hrow
  obtain ⟨cause, created, hcreated, hwire⟩ := bind_ok.mp hemit
  obtain ⟨_, wired, hwired, hclear⟩ := bind_ok.mp hwire
  obtain ⟨_, cleared, hcleared, hret⟩ := bind_ok.mp hclear
  cases hret
  cases hslot
  cases hcleared
  have hinslot : inserted.clientChangeId = some key := by
    rw [insertInquiry, get_bind_ok, orThrow_bind_ok] at hinsert
    obtain ⟨inquiries, _, hset⟩ := hinsert
    cases hset
    exact hkey
  obtain ⟨t, hemitted, halerts⟩ := emitChange_ok hcreated
  obtain ⟨row, _, _, _, htaken, hcases⟩ := emitRow_ok hemitted
  have hid : row.id = key := by
    rcases htaken with hnone | hsome
    · rw [hinslot] at hnone
      cases hnone
    · rw [hinslot] at hsome
      exact (Option.some.inj hsome).symm
  -- A `created` event never replays another.
  rcases hcases with ⟨_, hrecorded⟩ | ⟨_, hreplayed⟩
  · obtain ⟨subs, oldCost, newCost, hwrites⟩ := hrecorded.writes
    have hmem : row ∈ t.changeLog.rows := by
      rw [hrecorded.log]
      exact List.mem_append_right _ List.mem_cons_self
    have hnamed : CreatedUnder t.changeLog key item.kind (freshInquiryId tx) := by
      refine ⟨row, Table.find?_eq_some.mpr ⟨hmem, hid⟩, ?_, ?_, ?_⟩
      · rw [hwrites]
        rfl
      · rw [hwrites]
        rfl
      · rw [hwrites]
        rfl
    obtain ⟨alerts, halerts, _⟩ := halerts.log
    have hwirings : Silent created wired := keeps_forM (fun w => w.wire_silent _ _ _ _) _ hwired
    obtain ⟨wirings, hwirings, _⟩ := hwirings.log
    exact (hnamed.append halerts).append hwirings
  · exact absurd rfl hreplayed.kind_ne

theorem lookupExistingByChange_found
    (h : lookupExistingByChange (some key) kind tx = .ok (some id, tx')) :
    CreatedUnder tx.changeLog key kind id := by
  rw [lookupExistingByChange, get_bind_ok, Option.bind_some] at h
  cases hrow : tx.changeLog.find? key with
  | none =>
    rw [hrow] at h
    cases h
  | some row =>
    rw [hrow] at h
    obtain ⟨hcreated, hkind⟩ := ensure_bind_ok.mp h
    obtain ⟨hsame, hret⟩ := ensure_bind_ok.mp hkind
    cases hret
    exact ⟨row, hrow, hcreated, hsame, rfl⟩

/-- So does one that replays. -/
theorem submitOnConn_names (h : submitOnConn now item origin tx = .ok (id, tx'))
    (hkey : item.idempotencyKey.or tx.clientChangeId = some key) :
    CreatedUnder tx'.changeLog key item.kind id := by
  rw [submitOnConn, get_bind_ok] at h
  obtain ⟨existing, t, hlookup, hrest⟩ := bind_ok.mp h
  obtain rfl := lookupExistingByChange_ok hlookup
  cases existing with
  | none => exact insertSubmitted_names hrest hkey
  | some rowId =>
    obtain ⟨_, t', hcleared, hret⟩ := bind_ok.mp hrest
    cases hret
    rw [hkey] at hlookup
    have hnames := lookupExistingByChange_found hlookup
    cases hcleared
    exact hnames

/-- A submit whose key names a row returns the row and only takes the slot. -/
theorem submitOnConn_replays (hkey : item.idempotencyKey.or tx.clientChangeId = some key)
    (hnames : CreatedUnder tx.changeLog key item.kind id) :
    submitOnConn now item origin tx = .ok (id, { tx with clientChangeId := none }) := by
  obtain ⟨row, hfind, hcreated, hkind, rfl⟩ := hnames
  have hlookup : lookupExistingByChange (some key) item.kind tx = .ok (some row.subjectId, tx) := by
    rw [lookupExistingByChange, get_bind_ok, Option.bind_some, hfind]
    exact ensure_bind_ok.mpr ⟨hcreated, ensure_bind_ok.mpr ⟨hkind, rfl⟩⟩
  rw [submitOnConn, get_bind_ok, hkey]
  exact bind_ok.mpr ⟨_, tx, hlookup, rfl⟩

theorem submitItems_names (h : submitItems now origin items tx = .ok (ids, tx'))
    (hkeyed : KeyedBatch tx.clientChangeId items) :
    NamesBatch tx'.changeLog tx.clientChangeId items ids := by
  induction items generalizing tx ids with
  | nil =>
    cases h
    rfl
  | cons item items ih =>
    obtain ⟨id, t, hfirst, hrest⟩ := bind_ok.mp h
    obtain ⟨ids', t', hitems, hret⟩ := bind_ok.mp hrest
    cases hret
    obtain ⟨key, hkey⟩ := Option.isSome_iff_exists.mp hkeyed.1
    have hslot := submitOnConn_slot hfirst
    have hlater := ih hitems (by rw [hslot]; exact hkeyed.2)
    rw [hslot] at hlater
    obtain ⟨rows, hrows, _⟩ := (submitItems_posts now origin items hitems).log
    exact ⟨⟨key, hkey, (submitOnConn_names hfirst hkey).append hrows⟩, hlater⟩

theorem submitItems_replays (hnames : NamesBatch tx.changeLog tx.clientChangeId items ids) :
    ∃ slot, submitItems now origin items tx = .ok (ids, { tx with clientChangeId := slot }) := by
  induction items generalizing tx ids with
  | nil =>
    cases hnames
    exact ⟨tx.clientChangeId, rfl⟩
  | cons item items ih =>
    cases ids with
    | nil => cases hnames
    | cons id ids =>
      obtain ⟨⟨key, hkey, hnamed⟩, hrest⟩ := hnames
      have hfirst := @submitOnConn_replays key id item now
        { origin with actor := item.actor.getD origin.actor } tx hkey hnamed
      obtain ⟨slot, hitems⟩ := @ih ids { tx with clientChangeId := none } hrest
      exact ⟨slot, bind_ok.mpr ⟨id, _, hfirst, bind_ok.mpr ⟨ids, _, hitems, rfl⟩⟩⟩

section Retry

variable {check : Inquiry → Except StoreError Unit}

/-- Whatever is requested, the log only grows. -/
theorem commits_log (requests : List LedgerRequest) (s : Store) :
    ∃ rows, (requests.foldl (LedgerRequest.commit check) s).changeLog.rows =
      s.changeLog.rows ++ rows := by
  induction requests generalizing s with
  | nil => exact ⟨[], (List.append_nil _).symm⟩
  | cons request requests ih =>
    obtain ⟨first, hfirst, _⟩ := @LedgerRequest.commit_accounts check request s
    obtain ⟨rest, hrest⟩ := ih (request.commit check s)
    refine ⟨first ++ rest, ?_⟩
    rw [List.foldl_cons, hrest, hfirst, List.append_assoc]

theorem batchEdges_createNothing {slot : Option UUID} {u : Unit} {s : Store}
    (h : edges.forM (BatchEdge.add ids origin) { s with clientChangeId := slot } = .ok (u, tx')) :
    CreatesNothing s tx'.toStore := by
  have hmoves := keeps_forM (batchEdge_add_moves ids origin) edges h
  have hsilent := keeps_forM (batchEdge_add_silent ids origin) edges h
  obtain ⟨rows, hrows, hquiet⟩ := hsilent.log
  refine ⟨?_, rows, hrows, fun row hrow => (hquiet row hrow).created⟩
  have hids := congrArg (List.map Inquiry.id) hmoves.rows
  simpa [List.map_map, Function.comp_def, Inquiry.uncosted] using hids

/-- The edges of a batch can be added to a store, in their order: each is admissible there, and the
live edges stay acyclic with them and the provenance that they infer. -/
structure EdgesFit (s : Store) (ids : List UUID) (edges : List BatchEdge) : Prop where
  admissible : ∀ edge ∈ edges, edge.Admissible s ids
  acyclic : EdgesOk ((provenanceRules s.createdAt).run s.edgeKeys (edges.map (BatchEdge.keyIn ids)))

/-- A row put over one of its id and kind anchors what that one anchored. -/
theorem putRow_graphInv {s : Store} {row old : Inquiry} (h : EdgeGraphInv s)
    (hold : s.inquiries.find? row.id = some old) (hkind : row.kind = old.kind) :
    EdgeGraphInv (s.putRow row) := by
  have hkept : ∀ {id : UUID} {kind : InquiryKind}, s.HasRow id kind →
      (s.putRow row).HasRow id kind := by
    intro id kind hrow
    obtain ⟨found, hfind, hfound⟩ := hrow
    refine ⟨_, by rw [Store.putRow, Table.find?_update, hfind, Option.map_some], ?_⟩
    unfold putRow
    split
    next hsame =>
      rw [Table.find?_key hfind] at hsame
      rw [← hsame, hfind] at hold
      cases hold
      exact hkind.trans hfound
    next => exact hfound
  apply h.subset
  intro e he
  have hanchored := h.anchored e he
  exact ⟨he, hkept hanchored.source, hkept hanchored.target⟩

theorem editField_inv (targetId : UUID) (r : EditRequest) :
    Preserves (fun tx : Tx => EdgeGraphInv tx.toStore) (editField check targetId r) := by
  intro tx result tx' h hinv
  rcases editField_ok h with hstore | ⟨row, plan, changeId, hrow, hplan, happly⟩
  · exact hstore.symm ▸ hinv
  · have hspec := EditRequest.plan_spec hplan
    obtain ⟨_, t, hput, hrest⟩ := bind_ok.mp happly
    cases hput
    obtain ⟨emitted, t', hemit, hret⟩ := bind_ok.mp hrest
    cases hret
    refine (emitChange_moves _ _ hemit).inv (putRow_graphInv hinv ?_ hspec.rowKind)
    rw [hspec.id, Table.find?_key hrow]
    exact hrow

theorem LedgerOp.run_inv (op : LedgerOp) :
    Preserves (fun tx : Tx => EdgeGraphInv tx.toStore) (op.run check) := by
  cases op with
  | graph op => exact op.run_inv
  | edit targetId request => exact keeps_bind (editField_inv targetId request) fun _ => keeps_pure _
  | setCostAxis targetId axis value origin =>
    refine keeps_bind ?_ fun _ => keeps_pure _
    intro tx result tx' h hinv
    rcases setCostAxis_ok h with hstore | ⟨row, emitted, _, _, hemit⟩
    · exact hstore.symm ▸ hinv
    · exact (emitChange_moves _ _ hemit).inv hinv

theorem ledgerRun_inv (requests : List LedgerRequest) {s : Store} (h : EdgeGraphInv s) :
    EdgeGraphInv (requests.foldl (LedgerRequest.commit check) s) := by
  induction requests generalizing s with
  | nil => exact h
  | cons request requests ih =>
    apply ih
    rcases @LedgerRequest.commit_cases check request s with hold | ⟨tx', hrun, hcommit⟩
    · rwa [hold]
    · rw [hcommit]
      exact request.op.run_inv hrun h

/-- A batch that committed, retried under the same keys after whatever else was requested: its
items replay, and all that can fail is adding its edges again, which have no key. -/
theorem submitBatch_replays {header : Option UUID} {s : Store} (hkeyed : KeyedBatch header items)
    (h : submitBatch now items edges origin { s with clientChangeId := header } = .ok (ids, tx'))
    (requests : List LedgerRequest) (now' : Nat) (origin' : Origin) :
    let later := requests.foldl (LedgerRequest.commit check) tx'.toStore
    ∃ slot, submitItems now' origin' items { later with clientChangeId := header } =
      .ok (ids, { later with clientChangeId := slot }) := by
  intro later
  obtain ⟨ids₀, t, hitems, hrest⟩ := bind_ok.mp h
  obtain ⟨_, t', hedges, hret⟩ := bind_ok.mp hrest
  cases hret
  have hnames := submitItems_names hitems hkeyed
  obtain ⟨wired, hwired, _⟩ := (keeps_forM (batchEdge_add_silent ids origin) edges hedges).log
  obtain ⟨since, hsince⟩ := @commits_log check requests tx'.toStore
  have hlater : NamesBatch later.changeLog header items ids :=
    (hnames.append hwired).append hsince
  exact @submitItems_replays items ids now' origin' { later with clientChangeId := header } hlater

/-- A retry under the same keys returns the same ids and creates nothing exactly when the batch's
edges, which have no key, fit the store that it finds. -/
theorem submitBatch_retry_iff {header : Option UUID} {s : Store} (hinv : EdgeGraphInv s)
    (hitems : items ≠ []) (hkeyed : KeyedBatch header items)
    (h : submitBatch now items edges origin { s with clientChangeId := header } = .ok (ids, tx'))
    (requests : List LedgerRequest) (now' : Nat) (origin' : Origin) :
    let later := requests.foldl (LedgerRequest.commit check) tx'.toStore
    (∃ tx'', submitBatch now' items edges origin' { later with clientChangeId := header } =
        .ok (ids, tx'') ∧ CreatesNothing later tx''.toStore) ↔ EdgesFit later ids edges := by
  intro later
  obtain ⟨slot, hreplay⟩ : ∃ slot, submitItems now' origin' items
      { later with clientChangeId := header } = .ok (ids, { later with clientChangeId := slot }) :=
    submitBatch_replays hkeyed h requests now' origin'
  have hslot : slot = none := submitItems_slot hitems hreplay
  rw [hslot] at hreplay
  have hlater : EdgeGraphInv later :=
    ledgerRun_inv requests ((GraphOp.submitBatch now items edges origin).run_inv
      (bind_ok.mpr ⟨_, _, h, rfl⟩) hinv)
  have hlands := submitBatch_lands_iff hlater rfl hreplay edges
  constructor
  · rintro ⟨tx'', hagain, _⟩
    obtain ⟨hadmissible, hacyclic⟩ := hlands.mp ⟨_, hagain⟩
    exact ⟨hadmissible, hacyclic⟩
  · intro hfit
    obtain ⟨⟨ids', tx''⟩, hagain⟩ := hlands.mpr ⟨hfit.admissible, hfit.acyclic⟩
    have hparts := hagain
    rw [submitBatch, bind_run hreplay] at hparts
    obtain ⟨_, t, hadded, hret⟩ := bind_ok.mp hparts
    cases hret
    exact ⟨_, hagain, batchEdges_createNothing hadded⟩

end Retry

/-- A store with one issue. -/
def seeded : Store :=
  GraphRequest.commit {} { op := .submit 0 (backdatedIssue 0) { actor := [] } }

/-- An edge from the batch's first item to the issue of the store. -/
def toSeeded : BatchEdge :=
  { source := .item 0, target := .row 1, edgeKind := .requires }

def keyedIssue : SubmitItem :=
  { backdatedIssue 1 with idempotencyKey := some 8 }

/-- The issue that the batch's edge names is purged before the retry. -/
def purgesSeeded : List LedgerRequest :=
  [⟨.graph (.purge 1 { actor := [] }), none⟩]

theorem seeded_inv : EdgeGraphInv seeded :=
  GraphRequest.commit_inv edgeGraphInv_empty _

theorem submitBatch_retry_iff_purged : ∃ ids tx',
    submitBatch 0 [keyedIssue] [toSeeded] { actor := [] } { seeded with clientChangeId := none } =
      .ok (ids, tx') ∧
    ((∃ tx'', submitBatch 0 [keyedIssue] [toSeeded] { actor := [] }
        { purgesSeeded.foldl (LedgerRequest.commit fun _ => .ok ()) tx'.toStore with
          clientChangeId := none } = .ok (ids, tx'') ∧
        CreatesNothing (purgesSeeded.foldl (LedgerRequest.commit fun _ => .ok ()) tx'.toStore)
          tx''.toStore) ↔
      EdgesFit (purgesSeeded.foldl (LedgerRequest.commit fun _ => .ok ()) tx'.toStore) ids
        [toSeeded]) := by
  have hok : (submitBatch 0 [keyedIssue] [toSeeded] { actor := [] }
      { seeded with clientChangeId := none }).isOk = true := by
    decide +kernel
  cases hrun : submitBatch 0 [keyedIssue] [toSeeded] { actor := [] }
      { seeded with clientChangeId := none } with
  | error e =>
    rw [hrun] at hok
    cases hok
  | ok r =>
    have hkeyed : KeyedBatch none [keyedIssue] := ⟨rfl, trivial⟩
    exact ⟨r.1, r.2, rfl, submitBatch_retry_iff seeded_inv (List.cons_ne_nil _ _) hkeyed hrun
      purgesSeeded 0 { actor := [] }⟩

/-- The retry of a batch, of which every item has a key, does not find the purged issue. -/
theorem submitBatch_retry_fails : ¬ ∀ (items : List SubmitItem) (edges : List BatchEdge)
    (origin : Origin) (header : Option UUID) (s : Store) (ids : List UUID) (tx' : Tx)
    (requests : List LedgerRequest),
    (∀ item ∈ items, item.idempotencyKey.isSome = true) ∨ header.isSome = true →
    submitBatch 0 items edges origin { s with clientChangeId := header } = .ok (ids, tx') →
      ∃ tx'', submitBatch 0 items edges origin
          { requests.foldl (LedgerRequest.commit fun _ => .ok ()) tx'.toStore with
            clientChangeId := header } = .ok (ids, tx'') ∧
        CreatesNothing (requests.foldl (LedgerRequest.commit fun _ => .ok ()) tx'.toStore)
          tx''.toStore := by
  intro hclaim
  have hfails : (match submitBatch 0 [keyedIssue] [toSeeded] { actor := [] }
        { seeded with clientChangeId := none } with
      | .error _ => false
      | .ok (_, tx') => !(submitBatch 0 [keyedIssue] [toSeeded] { actor := [] }
          { purgesSeeded.foldl (LedgerRequest.commit fun _ => .ok ()) tx'.toStore with
            clientChangeId := none }).isOk) = true := by
    decide +kernel
  cases hrun : submitBatch 0 [keyedIssue] [toSeeded] { actor := [] }
      { seeded with clientChangeId := none } with
  | error e =>
    rw [hrun] at hfails
    cases hfails
  | ok r =>
    have hkeyed : ∀ item ∈ [keyedIssue], item.idempotencyKey.isSome = true := by
      intro item hitem
      rw [List.mem_singleton.mp hitem]
      rfl
    obtain ⟨tx'', hagain, _⟩ := hclaim _ _ _ none seeded r.1 r.2 purgesSeeded (Or.inl hkeyed) hrun
    rw [hrun] at hfails
    dsimp only at hfails
    rw [hagain] at hfails
    cases hfails

end Trackinizer
