import Trackinizer.LockFrames

namespace Trackinizer.Locks

open Keyed Transact Auth

section Logs

variable {log : List LockLogRow} {entry : LockLogRow} {id : UUID}

theorem lastSet_snoc_self (h : entry.inquiryId = id) : lastSet (log ++ [entry]) id = entry.locked := by
  simp [lastSet, List.filter_append, h]

theorem lastSet_snoc_other (h : entry.inquiryId ≠ id) :
    lastSet (log ++ [entry]) id = lastSet log id := by
  simp [lastSet, List.filter_append, h]

end Logs

section Requests

variable {P : Type} {policy : Option (AccessPolicy P)} {principal : Option P} {role : Role}
  {s : Store} {ids : List UUID} {u : Unit}

/-- What `require_writable` lets a caller who is no admin change is unlocked. -/
theorem requireWritable_unlocked (h : requireWritable policy principal role s ids = .ok u)
    (hrole : role ≠ .admin) {id : UUID} (hid : id ∈ ids) : isLocked s id = false := by
  rw [requireWritable, except_bind_ok] at h
  obtain ⟨_, _, h⟩ := h
  have hne : ids ≠ [] := List.ne_nil_of_mem hid
  rw [if_neg (by simp [hrole, hne])] at h
  split at h
  next hnone =>
    cases hrow : s.inquiries.find? id with
    | none => rw [isLocked, hrow, Option.any_none]
    | some row =>
      rw [isLocked, hrow, Option.any_some, Bool.eq_false_iff]
      intro hlocked
      have hmem : row ∈ lockedAmong s ids false := by
        rw [lockedAmong, List.mem_mergeSort, List.mem_filter, Table.find?_key hrow]
        exact ⟨Table.mem_of_find? hrow, by simp [hlocked, hid]⟩
      rw [List.head?_eq_none_iff.mp hnone] at hmem
      cases hmem
  next => cases h

end Requests

section Runs

variable {P : Type} (policy : Option (AccessPolicy P)) (check : Inquiry → Except StoreError Unit)

/-- An act of an admin's call, or a lock request. -/
def System.byAdmin (w : System P) : Act P → Bool
  | .setLock _ _ _ => true
  | .arrive call => decide (call.role = .admin)
  | .check i | .write i | .take i _ _ | .claim i | .leave i =>
      w.flights[i]?.any fun f => decide (f.call.role = .admin)

/-- No lock request since the call's check has set a row that the transaction names and left it set,
and no edge of the batch to write names by an item's index a row that is locked. -/
def System.onTime (w : System P) : Act P → Bool
  | .write i =>
      match w.flights[i]? with
      | some ⟨call, .passed (op :: _) slot logged⟩ =>
          decide (call.role = .admin) ||
            ((opRows op).all fun id => !lastSet (w.store.lockLog.drop logged) id) &&
              (replayedEnds w.store.toStore slot op).all fun id => !isLocked w.store.toStore id
      | _ => true
  | _ => true

/-- A lock of the row has committed and no unlock since, by the log or by the row itself. -/
def System.LockStands (w : System P) (id : UUID) : Prop :=
  lastSet w.store.lockLog id = true ∨ isLocked w.store.toStore id = true

/-- While a lock stands, every act that is not an admin's keeps the row and its edges. -/
def LocksHold (w₀ : System P) (trace : List (Act P)) : Prop :=
  ∀ before a after, trace = before ++ a :: after →
    ∀ w w', Trace.run (System.step policy check) w₀ before = some w →
      w.step policy check a = some w' → w.byAdmin a = false →
        ∀ id, w.LockStands id → KeepsRow id w.store.toStore w'.store.toStore

/-- What the log and the calls under way say of the rows. -/
structure System.Inv (w : System P) : Prop where
  set : ∀ id, lastSet w.store.lockLog id = true → isLocked w.store.toStore id = true
  checked : ∀ f ∈ w.flights, ∀ left slot logged, f.phase = .passed left slot logged →
    (∀ op ∈ left, op ∈ f.call.request.writes) ∧ logged ≤ w.store.lockLog.length ∧
      (f.call.role ≠ .admin → ∀ id ∈ f.call.request.rows,
        isLocked w.store.toStore id = true → lastSet (w.store.lockLog.drop logged) id = true)
  taken : ∀ f ∈ w.flights, ∀ issue, f.phase = .taken issue →
    isLocked w.store.toStore issue = false

end Runs

section Steps

variable {P : Type} {policy : Option (AccessPolicy P)} {check : Inquiry → Except StoreError Unit}
  {w w' : System P} {i : Nat}

theorem mem_modify {α : Type} {xs : List α} {f : α → α} {y : α} (h : y ∈ xs.modify i f) :
    y ∈ xs ∨ ∃ x, xs[i]? = some x ∧ y = f x := by
  obtain ⟨j, hj⟩ := List.getElem?_of_mem h
  rw [List.getElem?_modify] at hj
  obtain ⟨x, hx, hy⟩ := Option.map_eq_some_iff.mp hj
  split at hy
  next hij =>
    subst hij
    exact Or.inr ⟨x, hx, hy.symm⟩
  next =>
    cases hy
    exact Or.inl (List.mem_of_getElem? hx)

/-- A call moves on in a store that the others may find. -/
theorem System.Inv.move (h : w.Inv) {call : Call P} {old phase : Phase}
    (hflight : w.flights[i]? = some ⟨call, old⟩)
    (hpassed : ∀ left slot logged, phase = .passed left slot logged →
      (∀ op ∈ left, op ∈ call.request.writes) ∧ logged ≤ w.store.lockLog.length ∧
        (call.role ≠ .admin → ∀ id ∈ call.request.rows,
          isLocked w.store.toStore id = true →
            lastSet (w.store.lockLog.drop logged) id = true))
    (htaken : ∀ issue, phase = .taken issue → isLocked w.store.toStore issue = false) :
    (w.move i phase).Inv := by
  refine ⟨h.set, ?_, ?_⟩
  · intro f hf left slot logged hphase
    rcases mem_modify hf with hold | ⟨g, hg, rfl⟩
    · exact h.checked f hold left slot logged hphase
    · rw [hflight] at hg
      cases hg
      exact hpassed left slot logged hphase
  · intro f hf issue hphase
    rcases mem_modify hf with hold | ⟨g, hg, rfl⟩
    · exact h.taken f hold issue hphase
    · rw [hflight] at hg
      cases hg
      exact htaken issue hphase

/-- What the calls know of the store is of its locks. -/
theorem System.Inv.store (h : w.Inv) {s : Store}
    (hlocked : ∀ id, isLocked s id = isLocked w.store.toStore id) :
    ({ w with store := { w.store with toStore := s } } : System P).Inv := by
  refine ⟨?_, ?_, ?_⟩
  · intro id hset
    rw [hlocked]
    exact h.set id hset
  · intro f hf left slot logged hphase
    obtain ⟨hleft, hlength, hrows⟩ := h.checked f hf left slot logged hphase
    refine ⟨hleft, hlength, ?_⟩
    intro hrole id hid hset
    rw [hlocked] at hset
    exact hrows hrole id hid hset
  · intro f hf issue hphase
    rw [hlocked]
    exact h.taken f hf issue hphase

/-- A transaction that sets no lock, of a call that stays as far as it was. -/
theorem System.Inv.transact (h : w.Inv) {call : Call P} {old : Phase} {body : TxM Unit}
    {slot : Option UUID} {next : Option UUID → Phase} {p : UUID → Prop}
    (hflight : w.flights[i]? = some ⟨call, old⟩)
    (hspares : ∀ u tx, body { w.store.toStore with clientChangeId := slot } = .ok (u, tx) →
      Spares p w.store.toStore tx.toStore)
    (hpassed : ∀ slot' left slot logged, next slot' = .passed left slot logged →
      (∀ op ∈ left, op ∈ call.request.writes) ∧ logged ≤ w.store.lockLog.length ∧
        (call.role ≠ .admin → ∀ id ∈ call.request.rows,
          isLocked w.store.toStore id = true →
            lastSet (w.store.lockLog.drop logged) id = true))
    (htaken : ∀ slot' issue, next slot' ≠ .taken issue) :
    (w.transact i body slot next).Inv := by
  unfold System.transact
  split
  next u tx hrun =>
    have hlocked := (hspares u tx hrun).locked
    refine (h.store hlocked).move hflight ?_ ?_
    · intro left slot logged hphase
      obtain ⟨hleft, hlength, hrows⟩ := hpassed _ left slot logged hphase
      refine ⟨hleft, hlength, ?_⟩
      intro hrole id hid hset
      exact hrows hrole id hid ((hlocked id).symm.trans hset)
    · intro issue hphase
      exact absurd hphase (htaken _ issue)
  next =>
    exact h.move hflight (fun _ _ _ hphase => by cases hphase) (fun _ hphase => by cases hphase)

theorem isLocked_setLocked {s : Store} {targetId : UUID} {locked : Bool} {row : Inquiry}
    (hrow : s.inquiries.find? targetId = some row) (id : UUID) :
    isLocked (setLocked s targetId locked) id = if id = targetId then locked else isLocked s id := by
  rw [isLocked, setLocked, Table.find?_update]
  split
  next hid =>
    rw [hid, hrow, Option.map_some, Option.any_some, lockRow, if_pos (Table.find?_key hrow)]
  next hid =>
    rw [isLocked]
    cases hfind : s.inquiries.find? id with
    | none => rfl
    | some other =>
      have hother : other.id ≠ targetId := by
        rw [Table.find?_key hfind]
        exact hid
      rw [Option.map_some, lockRow, if_neg hother]

/-- A lock request is in the log of every check before it, and no claim holds its row. -/
theorem System.Inv.setLock (h : w.Inv) {targetId : UUID} {locked : Bool} {admin : Text}
    {s : LockStore} (hset : w.store.setLock targetId locked admin = some s)
    (hheld : w.held targetId = false) : ({ w with store := s } : System P).Inv := by
  obtain ⟨row, hrow, rfl⟩ := Option.map_eq_some_iff.mp hset
  refine ⟨?_, ?_, ?_⟩
  · intro id hlast
    rw [isLocked_setLocked hrow]
    by_cases hid : targetId = id
    · rw [if_pos hid.symm]
      exact (lastSet_snoc_self hid).symm.trans hlast
    · rw [if_neg (Ne.symm hid)]
      exact h.set id ((lastSet_snoc_other hid).symm.trans hlast)
  · intro f hf left slot logged hphase
    obtain ⟨hleft, hlength, hrows⟩ := h.checked f hf left slot logged hphase
    refine ⟨hleft, hlength.trans (by simp), ?_⟩
    intro hrole id hid hlocked
    rw [isLocked_setLocked hrow] at hlocked
    show lastSet ((w.store.lockLog ++ [(⟨targetId, locked, admin⟩ : LockLogRow)]).drop logged) id =
      true
    rw [List.drop_append_of_le_length hlength]
    by_cases htarget : targetId = id
    · rw [if_pos htarget.symm] at hlocked
      exact (lastSet_snoc_self htarget).trans hlocked
    · rw [if_neg (Ne.symm htarget)] at hlocked
      exact (lastSet_snoc_other htarget).trans (hrows hrole id hid hlocked)
  · intro f hf issue hphase
    have hother : issue ≠ targetId := by
      rintro rfl
      have hholds : w.held issue = true := by
        rw [System.held, List.any_eq_true]
        exact ⟨f, hf, by simp [hphase]⟩
      rw [hheld] at hholds
      cases hholds
    rw [isLocked_setLocked hrow, if_neg hother]
    exact h.taken f hf issue hphase

/-- What the check of a call leaves it to do. -/
theorem checked_spec {call : Call P} {s : LockStore} {left : List LedgerOp} {slot : Option UUID}
    {logged : Nat} (h : call.checked policy s = .passed left slot logged) :
    left = call.request.writes ∧ logged = s.lockLog.length ∧
      (call.role ≠ .admin → ∀ id ∈ call.request.rows, isLocked s.toStore id = false) := by
  unfold Call.checked at h
  split at h
  next u hok =>
    cases h
    exact ⟨rfl, rfl, fun hrole id hid => requireWritable_unlocked hok hrole hid⟩
  next => cases h

theorem eligibleIssue_unlocked {s : Store} {row : Inquiry} (h : eligibleIssue s row = true) :
    row.locked = false := by
  simp only [eligibleIssue, Bool.and_eq_true, Bool.not_eq_true'] at h
  exact h.1.1.2

/-- What every act keeps. -/
theorem System.Inv.step (h : w.Inv) {a : Act P} (hstep : w.step policy check a = some w') :
    w'.Inv := by
  cases a with
  | arrive call =>
    cases hstep
    refine ⟨h.set, ?_, ?_⟩
    · intro f hf left slot logged hphase
      rcases List.mem_append.mp hf with hf | hf
      · exact h.checked f hf left slot logged hphase
      · rw [List.mem_singleton.mp hf] at hphase
        cases hphase
    · intro f hf issue hphase
      rcases List.mem_append.mp hf with hf | hf
      · exact h.taken f hf issue hphase
      · rw [List.mem_singleton.mp hf] at hphase
        cases hphase
  | check i =>
    simp only [System.step] at hstep
    split at hstep
    next => cases hstep
    next call _ hflight =>
      cases hstep
      refine h.move hflight ?_ ?_
      · intro left slot logged hphase
        obtain ⟨rfl, rfl, hrows⟩ := checked_spec hphase
        refine ⟨fun _ hop => hop, le_refl _, ?_⟩
        intro hrole id hid hlocked
        rw [hrows hrole id hid] at hlocked
        cases hlocked
      · intro issue hphase
        unfold Call.checked at hphase
        split at hphase <;> cases hphase
    next => cases hstep
  | write i =>
    simp only [System.step] at hstep
    split at hstep
    next call op ops slot logged hflight =>
      cases hstep
      obtain ⟨hleft, hrest⟩ :=
        h.checked _ (List.mem_of_getElem? hflight) _ slot logged rfl
      refine h.transact hflight (fun u tx hrun => write_spares (hleft op List.mem_cons_self) hrun) ?_ ?_
      · intro slot' left slot logged hphase
        cases hphase
        exact ⟨fun op hop => hleft op (List.mem_cons_of_mem _ hop), hrest⟩
      · intro slot' issue hphase
        cases hphase
    next => cases hstep
  | take i snapshot issue =>
    simp only [System.step] at hstep
    split at hstep
    next request _ row hflight hrow =>
      split at hstep
      next htakes =>
        cases hstep
        refine h.move hflight (fun _ _ _ hphase => by cases hphase) ?_
        intro issue' hphase
        cases hphase
        rw [Bool.and_eq_true] at htakes
        have heligible := (Bool.and_eq_true _ _ ▸ htakes.1 : _ ∧ _).1
        rw [isLocked, hrow, Option.any_some, eligibleIssue_unlocked heligible]
      next => cases hstep
    next => cases hstep
  | claim i =>
    simp only [System.step] at hstep
    split at hstep
    next request _ issue hflight =>
      cases hstep
      exact h.transact hflight (fun u tx hrun => claimBody_spares hrun)
        (fun _ _ _ _ hphase => by cases hphase) (fun _ _ hphase => by cases hphase)
    next => cases hstep
  | leave i =>
    cases hstep
    cases hflight : w.flights[i]? with
    | none =>
      have hsame : w.move i .finished = w := by
        rw [System.move, List.modify_eq_self (List.getElem?_eq_none_iff.mp hflight)]
      rwa [hsame]
    | some f =>
      exact h.move hflight (fun _ _ _ hphase => by cases hphase) (fun _ hphase => by cases hphase)
  | setLock targetId locked admin =>
    simp only [System.step] at hstep
    split at hstep
    next => cases hstep
    next hheld =>
      obtain ⟨s, hset, rfl⟩ := Option.map_eq_some_iff.mp hstep
      exact h.setLock hset (Bool.eq_false_iff.mpr hheld)

theorem KeepsRow.refl (id : UUID) (s : Store) : KeepsRow id s s :=
  ⟨rfl, fun _ _ => rfl⟩

/-- A transaction keeps the locked rows that it spares, and one that raises keeps them all. -/
theorem transact_keeps {body : TxM Unit} {slot : Option UUID} {next : Option UUID → Phase}
    {p : UUID → Prop} {id : UUID}
    (hspares : ∀ u tx, body { w.store.toStore with clientChangeId := slot } = .ok (u, tx) →
      Spares p w.store.toStore tx.toStore)
    (hlocked : isLocked w.store.toStore id = true) (hp : ¬ p id) :
    KeepsRow id w.store.toStore (w.transact i body slot next).store.toStore := by
  obtain ⟨row, hrow, _⟩ := (Option.any_eq_true _ _).mp hlocked
  unfold System.transact
  split
  next u tx hrun => exact (hspares u tx hrun).kept id row hp hrow
  next => exact KeepsRow.refl _ _

/-- An act that is not an admin's and is on time keeps the locked rows. -/
theorem step_keeps (h : w.Inv) {a : Act P} (hon : w.onTime a = true) (hother : w.byAdmin a = false)
    (hstep : w.step policy check a = some w') {id : UUID}
    (hlocked : isLocked w.store.toStore id = true) :
    KeepsRow id w.store.toStore w'.store.toStore := by
  cases a with
  | arrive call =>
    cases hstep
    exact KeepsRow.refl _ _
  | check i =>
    simp only [System.step] at hstep
    split at hstep
    next => cases hstep
    next =>
      cases hstep
      exact KeepsRow.refl _ _
    next => cases hstep
  | write i =>
    simp only [System.step] at hstep
    split at hstep
    next call op ops slot logged hflight =>
      cases hstep
      have hrole : call.role ≠ .admin := by
        simp only [System.byAdmin, hflight, Option.any_some, decide_eq_false_iff_not] at hother
        exact hother
      simp only [System.onTime, hflight, Bool.or_eq_true, decide_eq_true_eq, Bool.and_eq_true,
        List.all_eq_true, Bool.not_eq_true'] at hon
      obtain ⟨hrows, hends⟩ := hon.resolve_left hrole
      obtain ⟨hleft, _, hchecked⟩ :=
        h.checked _ (List.mem_of_getElem? hflight) _ slot logged rfl
      refine transact_keeps
        (fun u tx hrun => write_spares (hleft op List.mem_cons_self) hrun) hlocked ?_
      rintro (hid | hid)
      · have hset := hchecked hrole id (opRows_subset (hleft op List.mem_cons_self) hid) hlocked
        rw [hrows id hid] at hset
        cases hset
      · rw [hends id hid] at hlocked
        cases hlocked
    next => cases hstep
  | take i snapshot issue =>
    simp only [System.step] at hstep
    split at hstep
    next =>
      split at hstep
      next =>
        cases hstep
        exact KeepsRow.refl _ _
      next => cases hstep
    next => cases hstep
  | claim i =>
    simp only [System.step] at hstep
    split at hstep
    next request _ issue hflight =>
      cases hstep
      refine transact_keeps (fun u tx hrun => claimBody_spares hrun) hlocked ?_
      rintro rfl
      have hfree := h.taken _ (List.mem_of_getElem? hflight) id rfl
      rw [hfree] at hlocked
      cases hlocked
    next => cases hstep
  | leave i =>
    cases hstep
    exact KeepsRow.refl _ _
  | setLock targetId locked admin => cases hother

end Steps

/-- In every run whose writes are on time, a row whose lock stands changes only for an admin, and
so do its edges. -/
theorem locked_row_kept {P : Type} (policy : Option (AccessPolicy P))
    (check : Inquiry → Except StoreError Unit) (s : Store) (trace : List (Act P))
    (halong : Trace.Along (System.step policy check) (fun w a => w.onTime a = true)
      { store := { toStore := s } } trace) :
    LocksHold policy check { store := { toStore := s } } trace := by
  have hstart : ({ store := { toStore := s } } : System P).Inv := by
    refine ⟨?_, ?_, ?_⟩
    · intro id hset
      cases hset
    · intro f hf
      cases hf
    · intro f hf
      cases hf
  intro before a after htrace w w' hrun hstep hother id hstands
  rw [htrace] at halong
  have hon := (halong.append hrun).2.1
  have hinv : w.Inv := Trace.run_keeps_from hstart (fun h hlast => h.step hlast) hrun
  have hlocked : isLocked w.store.toStore id = true := hstands.elim (hinv.set id) fun h => h
  exact step_keeps hinv hon hother hstep hlocked

section Races

def noChecks (_ : Inquiry) : Except StoreError Unit :=
  .ok ()

def openIssue (id : UUID) : Inquiry where
  id := id
  kind := .issue
  created := id
  fields
    | .title => .text "find a bound".toList
    | .status => .text "active".toList
    | _ => .null

/-- Two open issues; the key 7 submitted the first. -/
def twoIssues : Store where
  inquiries := ⟨[openIssue 1, openIssue 2], by decide⟩
  changeLog := ⟨[⟨7, none, [], 1, .issue, .created, none, "", [], {}, {}, {}, {}⟩], by decide⟩

/-- A writer describes the issue 1. -/
def describing : Call Unit where
  role := .writer
  request := .edit 1 { op := .setField .description (.text ['d']), actor := [] }

/-- A writer submits an issue under the key 7 again, and has it require the issue 2. -/
def requiring : Call Unit where
  role := .writer
  request := .submitBatch 0
    [{ kind := .issue, fields := fun _ => .null, idempotencyKey := some 7 }]
    [{ source := .item 0, target := .row 2, edgeKind := .requires }] { actor := [] }

/-- A description and an edge that the two would change. -/
def System.marks (w : System Unit) : Option Value × Bool :=
  ((w.store.inquiries.find? 1).map fun r => r.fields .description,
    (w.store.edges.find? ⟨1, 2, .requires⟩).isSome)

/-- The act is not an admin's, and changes the issue 1 while it is locked. -/
def System.breaksLock (w : System Unit) (a : Act Unit) : Bool :=
  !w.byAdmin a && isLocked w.store.toStore 1 &&
    (w.step none noChecks a).any fun w' => decide (w'.marks ≠ w.marks)

theorem not_locksHold {before : List (Act Unit)} {a : Act Unit}
    (h : (Trace.run (System.step none noChecks) { store := { toStore := twoIssues } } before).any
      (System.breaksLock · a) = true) :
    ¬ LocksHold none noChecks { store := { toStore := twoIssues } } (before ++ [a]) := by
  intro hholds
  obtain ⟨w, hrun, hbreaks⟩ := (Option.any_eq_true _ _).mp h
  simp only [System.breaksLock, Bool.and_eq_true, Bool.not_eq_true'] at hbreaks
  obtain ⟨⟨hother, hlocked⟩, hstep⟩ := hbreaks
  obtain ⟨w', hstep, hmarks⟩ := (Option.any_eq_true _ _).mp hstep
  have hkept := hholds before a [] rfl w w' hrun hstep hother 1 (Or.inr hlocked)
  refine of_decide_eq_true hmarks ?_
  rw [System.marks, hkept.row, hkept.edges _ (Or.inl rfl)]
  rfl

/-- A lock that commits between the check of an edit and its write is passed over; and one that
stands does not keep an edge from a row that a batch names by an item that replays. -/
theorem locked_row_changed :
    ¬ LocksHold none noChecks { store := { toStore := twoIssues } }
        ([.arrive describing, .check 0, .setLock 1 true []] ++ [.write 0]) ∧
      ¬ LocksHold none noChecks { store := { toStore := twoIssues } }
        ([.setLock 1 true [], .arrive requiring, .check 0] ++ [.write 0]) :=
  ⟨not_locksHold (by decide +kernel), not_locksHold (by decide +kernel)⟩

/-- An edit of a locked row is refused; once it is unlocked, another is made. -/
theorem locked_row_kept_unlocked :
    LocksHold none noChecks { store := { toStore := twoIssues } }
        [.setLock 1 true [], .arrive describing, .check 0, .setLock 1 false [],
          .arrive describing, .check 1, .write 1] ∧
      (Trace.run (System.step none noChecks) { store := { toStore := twoIssues } }
        [.setLock 1 true [], .arrive describing, .check 0, .setLock 1 false [],
          .arrive describing, .check 1, .write 1]).map System.marks =
        some (some (.text ['d']), false) :=
  ⟨locked_row_kept none noChecks twoIssues _ (by decide +kernel), by decide +kernel⟩

end Races

end Trackinizer.Locks
