import Trackinizer.ClaimQueue

namespace Trackinizer

open Keyed Transact Interleave

/-- The row apart from its owner. -/
def Inquiry.disowned (r : Inquiry) : Inquiry :=
  { r with fields := Function.update r.fields .owner .null }

/-- Two stores that differ at most in owners and in the log. -/
structure SameQueue (s s' : Store) : Prop where
  edges : s'.edges = s.edges
  rows : s'.inquiries.rows.map Inquiry.disowned = s.inquiries.rows.map Inquiry.disowned

theorem SameQueue.refl (s : Store) : SameQueue s s := ⟨rfl, rfl⟩

theorem SameQueue.trans {s t s' : Store} (h : SameQueue s t) (h' : SameQueue t s') :
    SameQueue s s' :=
  ⟨h'.edges.trans h.edges, h'.rows.trans h.rows⟩

theorem SameQueue.symm {s s' : Store} (h : SameQueue s s') : SameQueue s' s :=
  ⟨h.edges.symm, h.rows.symm⟩

theorem disowned_ownRow (issue : UUID) (owner : Actor) (r : Inquiry) :
    (ownRow issue owner r).disowned = r.disowned := by
  unfold ownRow
  split
  next => simp [Inquiry.disowned, Function.update_idem]
  next => rfl

theorem disowned_fields {c : Column} (h : c ≠ .owner) (r : Inquiry) :
    r.disowned.fields c = r.fields c :=
  Function.update_of_ne h _ _

theorem isActive_disowned (r : Inquiry) : r.disowned.isActive = r.isActive := by
  rw [Inquiry.isActive, Inquiry.isActive, disowned_fields (by decide)]

theorem resource_disowned (r : Inquiry) : r.disowned.resource = r.resource := by
  rw [Inquiry.resource, Inquiry.resource, disowned_fields (by decide)]
  rfl

theorem sameQueue_claim (s : Store) (issue : UUID) (owner : Actor) (rows : List Change) :
    SameQueue s (s.claim issue owner rows) := by
  refine ⟨rfl, ?_⟩
  rw [Store.claim, Table.rows_update, List.map_map]
  exact List.map_congr_left (fun r _ => disowned_ownRow issue owner r)

/-- Whether a row is eligible depends on no other row's owner. -/
theorem SameQueue.eligibleIssue {s s' : Store} (h : SameQueue s s') (issue : Inquiry) :
    eligibleIssue s' issue = eligibleIssue s issue := by
  have hactive : ∀ id, (s'.inquiries.find? id).any Inquiry.isActive =
      (s.inquiries.find? id).any Inquiry.isActive := by
    intro id
    have hmap := @Table.find?_map_congr _ _ _ _ _ _ Inquiry.disowned (fun _ => rfl) h.rows id
    have hany := congrArg (Option.any Inquiry.isActive) hmap
    simpa only [Option.any_map, Function.comp_def, isActive_disowned] using hany
  rw [Trackinizer.eligibleIssue, Trackinizer.eligibleIssue, h.edges]
  simp only [hactive]

theorem eligibleIssue_iff {s : Store} {issue : Inquiry} (h : eligibleIssue s issue = true) :
    issue.kind = .issue ∧ issue.isActive = true ∧ issue.fields .owner = .null := by
  simp only [eligibleIssue, Bool.and_eq_true, decide_eq_true_eq] at h
  obtain ⟨⟨⟨⟨⟨hkind, hactive⟩, howner⟩, _⟩, _⟩, _⟩ := h
  exact ⟨hkind, hactive, howner⟩

section Claims

variable {ι P : Type} {calls : ι → ClaimRequest P}
  {policy : Option (AccessPolicy P)} {hashtext : String → Int} {w w' : ClaimWorld ι} {i j : ι}

theorem inquiryReadFilter_ownRow (principal : Option P) (issue : UUID) (owner : Actor)
    (r : Inquiry) : inquiryReadFilter policy principal (ownRow issue owner r) =
      inquiryReadFilter policy principal r := by
  have hresource : (ownRow issue owner r).resource = r.resource := by
    rw [← resource_disowned, disowned_ownRow, resource_disowned]
  unfold inquiryReadFilter
  split
  next => rw [hresource]
  next => rfl

/-- The call has put its probe behind it and has not finished. -/
def ClaimPhase.pastProbe : ClaimPhase → Bool
  | .start | .serialized | .finished _ => false
  | _ => true

theorem ClaimPhase.isOpen_of_pastProbe {p : ClaimPhase} (h : p.pastProbe = true) :
    p.isOpen = true := by
  cases p with
  | start => cases h
  | serialized => rfl
  | probed => rfl
  | scanning snapshot candidates => rfl
  | owned issue => rfl
  | audited issue rows => rfl
  | finished outcome => cases h

theorem ClaimPhase.rowLock_of_closed {p : ClaimPhase} (h : p.isOpen = false) :
    p.rowLock = none := by
  cases p with
  | owned issue => cases h
  | audited issue rows => cases h
  | _ => rfl

/-- The audit row of a claim, as a later probe reads it. -/
structure ClaimRow (r : ClaimRequest P) (issue : UUID) (row : Change) : Prop where
  made : r.made row = true
  subject : row.subjectId = issue

theorem Audits.claimRow {issue : UUID} {own : Change} {alerts : List Change}
    (h : Audits calls w i issue own alerts) : ClaimRow (calls i) issue own := by
  obtain ⟨row, _, hown⟩ := h.own_row
  rw [hown]
  refine ⟨?_, rfl⟩
  simp [ClaimRequest.made, ClaimRequest.emission, Emission.row, Snapshot.stored, Snapshot.cell]

/-- The row a committed claim left: active, readable to its claimer and owned by it. -/
structure Owned (policy : Option (AccessPolicy P)) (r : ClaimRequest P) (s : Store)
    (issue : UUID) : Prop where
  row : ∃ row, s.inquiries.find? issue = some row ∧ row.isActive = true ∧
    row.fields .owner = .text r.owner ∧ inquiryReadFilter policy r.principal row = true

/-- What holds of a call in a phase, over the store it shares. -/
structure PhaseInv (calls : ι → ClaimRequest P) (policy : Option (AccessPolicy P))
    (s₀ s : Store) (i : ι) (p : ClaimPhase) : Prop where
  named : p.isOpen = true → isBlank (calls i).owner = false
  snapshot : ∀ snapshot candidates, p = .scanning snapshot candidates → SameQueue s₀ snapshot
  unlogged : ∀ key, p.pastProbe = true → (calls i).key = some key →
    s.changeLog.find? key = none
  eligible : ∀ issue, p.rowLock = some issue →
    ∃ row, s.inquiries.find? issue = some row ∧ eligibleIssue s row = true ∧
      inquiryReadFilter policy (calls i).principal row = true
  audited : ∀ issue rows, p = .audited issue rows →
    ∃ own alerts, rows = own :: alerts ∧ ClaimRow (calls i) issue own ∧
      (∀ key, (calls i).key = some key → own.id = key) ∧
      ∀ id ∈ rows.map Change.id, (calls i).key ≠ some id → ∀ j, (calls j).key ≠ some id
  claimed : ∀ issue, p = .finished (.claimed issue) →
    isBlank (calls i).owner = false ∧ Owned policy (calls i) s issue ∧
      ∀ key, (calls i).key = some key →
        ∃ own, s.changeLog.find? key = some own ∧ ClaimRow (calls i) issue own

/-- The invariant of every interleaving. -/
structure ClaimInv (calls : ι → ClaimRequest P) (policy : Option (AccessPolicy P))
    (hashtext : String → Int) (s₀ : Store) (w : ClaimWorld ι) : Prop where
  same : SameQueue s₀ w.store
  advisory : Exclusive (advisoryLock calls hashtext) w
  issues : Exclusive issueLock w
  phases : ∀ i, PhaseInv calls policy s₀ w.store i (w.phase i)
  once : ∀ i j issue, w.phase i = .finished (.claimed issue) →
    w.phase j = .finished (.claimed issue) → i = j
  keyed : ∀ i j issue issue' key, (calls i).key = some key → (calls j).key = some key →
    w.phase i = .finished (.claimed issue) → w.phase j = .finished (.claimed issue') → i = j

/-- A phase that holds nothing, has nothing pending and has claimed nothing. -/
structure ClaimPhase.Idle (p : ClaimPhase) : Prop where
  closed : p.isOpen = false
  unclaimed : ∀ issue, p ≠ .finished (.claimed issue)

theorem PhaseInv.idle {s₀ s : Store} {p : ClaimPhase} (hp : p.Idle) :
    PhaseInv calls policy s₀ s i p := by
  have hclosed := hp.closed
  refine ⟨?_, ?_, ?_, ?_, ?_, ?_⟩
  · intro hopen
    rw [hclosed] at hopen
    cases hopen
  · intro snapshot candidates heq
    rw [heq] at hclosed
    cases hclosed
  · intro key hpast
    rw [ClaimPhase.isOpen_of_pastProbe hpast] at hclosed
    cases hclosed
  · intro issue hlock
    rw [ClaimPhase.rowLock_of_closed hclosed] at hlock
    cases hlock
  · intro issue rows heq
    rw [heq] at hclosed
    cases hclosed
  · intro issue heq
    exact absurd heq (hp.unclaimed issue)

/-- An open phase before its issue is taken brings along the snapshot and the probe. -/
theorem PhaseInv.unlocked {s₀ s : Store} {p : ClaimPhase} (hopen : p.isOpen = true)
    (hlock : p.rowLock = none) (hnamed : isBlank (calls i).owner = false)
    (hsnapshot : ∀ snapshot candidates, p = .scanning snapshot candidates → SameQueue s₀ snapshot)
    (hunlogged : ∀ key, p.pastProbe = true → (calls i).key = some key →
      s.changeLog.find? key = none) : PhaseInv calls policy s₀ s i p := by
  refine ⟨fun _ => hnamed, hsnapshot, hunlogged, ?_, ?_, ?_⟩
  · intro issue heq
    rw [hlock] at heq
    cases heq
  · intro issue rows heq
    rw [heq] at hlock
    cases hlock
  · intro issue heq
    rw [heq] at hopen
    cases hopen

theorem claimInv_start {s₀ : Store} : ClaimInv calls policy hashtext s₀ ⟨s₀, fun _ => .start⟩ := by
  refine ⟨SameQueue.refl s₀, ?_, ?_, ?_, ?_, ?_⟩
  · intro i j a hi
    cases hi
  · intro i j a hi
    cases hi
  · intro i
    apply PhaseInv.idle
    refine ⟨rfl, ?_⟩
    intro issue heq
    cases heq
  · intro i j issue hi
    cases hi
  · intro i j issue issue' key _ _ hi
    cases hi

/-- A phase without an issue's lock takes none. -/
theorem free_of_rowLock_none {p : ClaimPhase} (h : p.rowLock = none) : Free issueLock w i p := by
  intro j a hi
  rw [issueLock, h] at hi
  cases hi

/-- The advisory lock stays with a call that is open already. -/
theorem ClaimInv.advisory_free {s₀ : Store} (h : ClaimInv calls policy hashtext s₀ w)
    {p : ClaimPhase} (hopen : (w.phase i).isOpen = true) :
    Free (advisoryLock calls hashtext) w i p := by
  apply h.advisory.free
  intro a hi
  unfold advisoryLock at hi ⊢
  rw [if_pos hopen]
  split at hi
  · exact hi
  · cases hi

/-- The rows one call has pending never name the key of another that is past its probe. -/
theorem ClaimInv.key_not_pending {s₀ : Store} (h : ClaimInv calls policy hashtext s₀ w)
    {issue key : UUID} {rows : List Change} (hi : w.phase i = .audited issue rows) (hji : j ≠ i)
    (hj : (w.phase j).isOpen = true) (hkey : (calls j).key = some key) :
    key ∉ rows.map Change.id := by
  intro hmem
  obtain ⟨own, alerts, _, _, _, hminted⟩ := (h.phases i).audited issue rows hi
  by_cases hsame : (calls i).key = some key
  · have hiopen : (w.phase i).isOpen = true := by rw [hi]; rfl
    have hlock : ∀ k, (w.phase k).isOpen = true → (calls k).key = some key →
        advisoryLock calls hashtext k (w.phase k) =
          some (hashtext s!"claim_next_issue:{key}") := by
      intro k hopen hk
      rw [advisoryLock, if_pos hopen, hk]
      rfl
    exact hji (h.advisory j i _ (hlock j hj hkey) (hlock i hiopen hsame))
  · exact hminted key hmem hsame j hkey

theorem find?_claim {s : Store} {issue id : UUID} {owner : Actor} {rows : List Change} :
    (s.claim issue owner rows).inquiries.find? id =
      (s.inquiries.find? id).map (ownRow issue owner) :=
  @Table.find?_update _ _ _ _ _ (ownRow issue owner) (ownRow_id issue owner) id

theorem find?_claim_log {s : Store} {issue key : UUID} {owner : Actor} {rows : List Change} :
    (s.claim issue owner rows).changeLog.find? key =
      (s.changeLog.find? key).or (Table.lookup Change.id rows key) :=
  Table.find?_foldl_insertAbsent s.changeLog rows key

theorem ownRow_of_ne {issue : UUID} {owner : Actor} {r : Inquiry} (h : r.id ≠ issue) :
    ownRow issue owner r = r := by
  rw [ownRow, if_neg h]

theorem ownRow_owner {issue : UUID} {owner : Actor} {r : Inquiry} (h : r.id = issue) :
    (ownRow issue owner r).fields .owner = .text owner := by
  simp [ownRow, h]

/-- Another call's commit keeps what holds of a call. -/
theorem ClaimInv.phase_commit {s₀ : Store} (h : ClaimInv calls policy hashtext s₀ w)
    {issue : UUID} {rows : List Change} (hi : w.phase i = .audited issue rows) (hji : j ≠ i) :
    PhaseInv calls policy s₀ (w.store.claim issue (calls i).owner rows) j (w.phase j) := by
  have hj := h.phases j
  have hheld : issueLock i (w.phase i) = some issue := by rw [hi]; rfl
  obtain ⟨taken, htaken, heligible, _⟩ := (h.phases i).eligible issue hheld
  have hunowned := (eligibleIssue_iff heligible).2.2
  refine ⟨hj.named, hj.snapshot, ?_, ?_, hj.audited, ?_⟩
  · intro key hpast hkey
    have hopen := ClaimPhase.isOpen_of_pastProbe hpast
    have hpending := h.key_not_pending hi hji hopen hkey
    have hlookup : Table.lookup Change.id rows key = none := by
      rw [Table.lookup_eq_none]
      intro row hrow hid
      exact hpending (List.mem_map.mpr ⟨row, hrow, hid⟩)
    rw [find?_claim_log, hj.unlogged key hpast hkey, hlookup]
    rfl
  · intro issue' hlock
    obtain ⟨row, hrow, hrow_eligible, hreadable⟩ := hj.eligible issue' hlock
    have hne : row.id ≠ issue := by
      rw [Table.find?_key hrow]
      intro hsame
      exact hji (h.issues j i issue (hsame ▸ hlock) hheld)
    refine ⟨row, ?_, ?_, hreadable⟩
    · rw [find?_claim, hrow, Option.map_some, ownRow_of_ne hne]
    · rw [(sameQueue_claim _ _ _ _).eligibleIssue]
      exact hrow_eligible
  · intro issue' hclaimed
    obtain ⟨hblank, ⟨row, hrow, hactive, howner, hreadable⟩, hlogged⟩ := hj.claimed issue' hclaimed
    have hne : row.id ≠ issue := by
      rw [Table.find?_key hrow]
      intro hsame
      rw [hsame, htaken] at hrow
      cases hrow
      rw [hunowned] at howner
      cases howner
    refine ⟨hblank, ⟨row, ?_, hactive, howner, hreadable⟩, ?_⟩
    · rw [find?_claim, hrow, Option.map_some, ownRow_of_ne hne]
    · intro key hkey
      obtain ⟨own, hown, hrow'⟩ := hlogged key hkey
      refine ⟨own, ?_, hrow'⟩
      rw [find?_claim_log, hown]
      rfl

variable [DecidableEq ι]

/-- A step that leaves the store alone keeps the invariant when the phase it enters takes
free locks only, meets its own part and claims nothing. -/
theorem ClaimInv.move {s₀ : Store} (h : ClaimInv calls policy hashtext s₀ w) {p : ClaimPhase}
    (hadvisory : Free (advisoryLock calls hashtext) w i p) (hissues : Free issueLock w i p)
    (hp : PhaseInv calls policy s₀ w.store i p) (hclaim : ∀ issue, p ≠ .finished (.claimed issue)) :
    ClaimInv calls policy hashtext s₀ (w.move i p) := by
  have hold : ∀ j issue, (w.move i p).phase j = .finished (.claimed issue) →
      w.phase j = .finished (.claimed issue) := by
    intro j issue
    by_cases hji : j = i
    · subst hji
      rw [World.move_phase_self]
      exact fun heq => absurd heq (hclaim issue)
    · rw [World.move_phase_of_ne hji]
      exact id
  refine ⟨h.same, h.advisory.write hadvisory, h.issues.write hissues, ?_, ?_, ?_⟩
  · exact World.forall_write hp (fun j _ => h.phases j)
  · intro j k issue hj hk
    exact h.once j k issue (hold j issue hj) (hold k issue hk)
  · intro j k issue issue' key hjk hkk hj hk
    exact h.keyed j k issue issue' key hjk hkk (hold j issue hj) (hold k issue' hk)

/-- A call that is closed in its new phase takes no lock. -/
theorem ClaimInv.idle {s₀ : Store} (h : ClaimInv calls policy hashtext s₀ w) {p : ClaimPhase}
    (hp : p.Idle) : ClaimInv calls policy hashtext s₀ (w.move i p) := by
  have hadvisory : Free (advisoryLock calls hashtext) w i p := by
    intro j a hi
    rw [advisoryLock, hp.closed] at hi
    cases hi
  exact h.move hadvisory (free_of_rowLock_none (ClaimPhase.rowLock_of_closed hp.closed))
    (PhaseInv.idle hp) hp.unclaimed

/-- A finished call has nothing to audit and nothing pending. -/
theorem idle_finished {outcome : ClaimOutcome} (h : ∀ issue, outcome ≠ .claimed issue) :
    (ClaimPhase.finished outcome).Idle :=
  ⟨rfl, fun issue heq => h issue (ClaimPhase.finished.inj heq)⟩

theorem replayClaim_none {s : Store} {r : ClaimRequest P} (h : replayClaim policy s r = .ok none) :
    ∀ key, r.key = some key → s.changeLog.find? key = none := by
  intro key hkey
  unfold replayClaim at h
  rw [hkey, Option.bind_some] at h
  cases hrow : s.changeLog.find? key with
  | none => rfl
  | some existing =>
      rw [hrow] at h
      dsimp only at h
      split at h
      next =>
        split at h
        next => cases h
        next =>
          split at h
          next =>
            split at h
            next => cases h
            next => cases h
          next => cases h
      next => cases h

omit [DecidableEq ι] in
/-- A call that has claimed the issue left it owned, and one under the key left it logged. -/
theorem ClaimInv.claimed_before {s₀ : Store} (h : ClaimInv calls policy hashtext s₀ w)
    {issue : UUID} {rows : List Change} (hi : w.phase i = .audited issue rows) {issue' : UUID}
    (hj : w.phase j = .finished (.claimed issue')) :
    issue' ≠ issue ∧ ∀ key, (calls i).key = some key → (calls j).key ≠ some key := by
  have hphase := h.phases i
  have hheld : (w.phase i).rowLock = some issue := by rw [hi]; rfl
  have hpast : (w.phase i).pastProbe = true := by rw [hi]; rfl
  obtain ⟨taken, htaken, heligible, _⟩ := hphase.eligible issue hheld
  have hunowned := (eligibleIssue_iff heligible).2.2
  obtain ⟨_, ⟨row, hrow, _, howner, _⟩, hlogged⟩ := (h.phases j).claimed issue' hj
  refine ⟨?_, ?_⟩
  · intro hsame
    rw [hsame, htaken] at hrow
    cases hrow
    rw [hunowned] at howner
    cases howner
  · intro key hkey hkey'
    obtain ⟨own', hown', _⟩ := hlogged key hkey'
    rw [hphase.unlogged key hpast hkey] at hown'
    cases hown'

omit [DecidableEq ι] in
/-- The claim a commit leaves. -/
theorem ClaimInv.commit_self {s₀ : Store} (h : ClaimInv calls policy hashtext s₀ w) {issue : UUID}
    {rows : List Change} (hi : w.phase i = .audited issue rows) :
    PhaseInv calls policy s₀ (w.store.claim issue (calls i).owner rows) i
      (.finished (.claimed issue)) := by
  have hphase := h.phases i
  have hheld : (w.phase i).rowLock = some issue := by rw [hi]; rfl
  have hopen : (w.phase i).isOpen = true := by rw [hi]; rfl
  have hpast : (w.phase i).pastProbe = true := by rw [hi]; rfl
  obtain ⟨taken, htaken, heligible, hreadable⟩ := hphase.eligible issue hheld
  have hactive := (eligibleIssue_iff heligible).2.1
  obtain ⟨own, alerts, hrows, hclaimrow, hownid, _⟩ := hphase.audited issue rows hi
  have hid : taken.id = issue := Table.find?_key htaken
  refine ⟨?_, ?_, ?_, ?_, ?_, ?_⟩
  · intro hfinished
    cases hfinished
  · intro snapshot candidates heq
    cases heq
  · intro key hfinished
    cases hfinished
  · intro issue' hlock
    cases hlock
  · intro issue' rows' heq
    cases heq
  · intro issue' heq
    cases heq
    refine ⟨hphase.named hopen, ⟨ownRow issue (calls i).owner taken, ?_, ?_, ?_, ?_⟩, ?_⟩
    · rw [find?_claim, htaken, Option.map_some]
    · rw [← isActive_disowned, disowned_ownRow, isActive_disowned]
      exact hactive
    · exact ownRow_owner hid
    · rw [inquiryReadFilter_ownRow]
      exact hreadable
    · intro key hkey
      refine ⟨own, ?_, hclaimrow⟩
      rw [find?_claim_log, hphase.unlogged key hpast hkey, Option.none_or, hrows,
        Table.lookup_cons, if_pos (hownid key hkey), Option.some_or]

/-- A commit keeps the invariant: its issue was unowned and its key unlogged. -/
theorem ClaimInv.commit {s₀ : Store} (h : ClaimInv calls policy hashtext s₀ w) {issue : UUID}
    {rows : List Change} (hi : w.phase i = .audited issue rows) :
    ClaimInv calls policy hashtext s₀
      (w.write i (w.store.claim issue (calls i).owner rows) (.finished (.claimed issue))) := by
  have hopen : (w.phase i).isOpen = true := by rw [hi]; rfl
  have hlocks : Free (advisoryLock calls hashtext) w i (.finished (.claimed issue)) :=
    h.advisory_free hopen
  refine ⟨h.same.trans (sameQueue_claim _ _ _ _), h.advisory.write hlocks,
    h.issues.write (free_of_rowLock_none rfl), ?_, ?_, ?_⟩
  · exact World.forall_write (h.commit_self hi) (fun j hji => h.phase_commit hi hji)
  · apply World.forall_pair_write (R := fun j (p : ClaimPhase) k (q : ClaimPhase) => ∀ issue',
      p = .finished (.claimed issue') → q = .finished (.claimed issue') → j = k)
    · intro _ _ _
      rfl
    · intro j _
      refine ⟨?_, ?_⟩
      · intro issue' heq hj
        cases heq
        exact absurd rfl (h.claimed_before hi hj).1
      · intro issue' hj heq
        cases heq
        exact absurd rfl (h.claimed_before hi hj).1
    · exact h.once
  · apply World.forall_pair_write (R := fun j (p : ClaimPhase) k (q : ClaimPhase) =>
      ∀ issue' issue'' key, (calls j).key = some key → (calls k).key = some key →
        p = .finished (.claimed issue') → q = .finished (.claimed issue'') → j = k)
    · intro _ _ _ _ _ _ _
      rfl
    · intro j _
      refine ⟨?_, ?_⟩
      · intro _ _ key hik hjk _ hj
        exact absurd hjk ((h.claimed_before hi hj).2 key hik)
      · intro _ _ key hjk hik hj _
        exact absurd hjk ((h.claimed_before hi hj).2 key hik)
    · exact h.keyed

/-- An open call goes on to a phase before its issue is taken. -/
theorem ClaimInv.goOn {s₀ : Store} (h : ClaimInv calls policy hashtext s₀ w)
    (hopen : (w.phase i).isOpen = true) {p : ClaimPhase} (hp : p.isOpen = true)
    (hlock : p.rowLock = none)
    (hsnapshot : ∀ snapshot candidates, p = .scanning snapshot candidates → SameQueue s₀ snapshot)
    (hunlogged : ∀ key, p.pastProbe = true → (calls i).key = some key →
      w.store.changeLog.find? key = none) :
    ClaimInv calls policy hashtext s₀ (w.move i p) := by
  apply h.move (h.advisory_free hopen) (free_of_rowLock_none hlock)
  · exact PhaseInv.unlocked hp hlock ((h.phases i).named hopen) hsnapshot hunlogged
  · intro issue heq
    rw [heq] at hp
    cases hp

/-- An open call takes the lock of an eligible issue, by what it reads under it. -/
theorem ClaimInv.take {s₀ : Store} (h : ClaimInv calls policy hashtext s₀ w)
    {snapshot : Store} {candidates : List Inquiry}
    (hscanning : w.phase i = .scanning snapshot candidates) {issue : UUID} {row : Inquiry}
    (hrow : w.store.inquiries.find? issue = some row) (heligible : eligibleIssue snapshot row = true)
    (hreadable : inquiryReadFilter policy (calls i).principal row = true)
    (hfree : Free issueLock w i (.owned issue)) :
    ClaimInv calls policy hashtext s₀ (w.move i (.owned issue)) := by
  have hphase := h.phases i
  have hopen : (w.phase i).isOpen = true := by rw [hscanning]; rfl
  have hpast : (w.phase i).pastProbe = true := by rw [hscanning]; rfl
  have hsnapshot := (hphase.snapshot _ _ hscanning).symm.trans h.same
  apply h.move (h.advisory_free hopen) hfree
  · refine ⟨fun _ => hphase.named hopen, ?_, ?_, ?_, ?_, ?_⟩
    · intro snapshot' candidates' heq
      cases heq
    · intro key _
      exact hphase.unlogged key hpast
    · intro issue' hlock
      cases hlock
      exact ⟨row, hrow, hsnapshot.eligibleIssue row ▸ heligible, hreadable⟩
    · intro issue' rows heq
      cases heq
    · intro issue' heq
      cases heq
  · intro issue' heq
    cases heq

/-- A call that has its issue has the claim audited. -/
theorem ClaimInv.audit {s₀ : Store} (h : ClaimInv calls policy hashtext s₀ w) {issue : UUID}
    {own : Change} {alerts : List Change} (howned : w.phase i = .owned issue)
    (haudits : Audits calls w i issue own alerts) :
    ClaimInv calls policy hashtext s₀ (w.move i (.audited issue (own :: alerts))) := by
  have hphase := h.phases i
  have hopen : (w.phase i).isOpen = true := by rw [howned]; rfl
  have hpast : (w.phase i).pastProbe = true := by rw [howned]; rfl
  have hheld : issueLock i (w.phase i) = some issue := by rw [howned]; rfl
  apply h.move (h.advisory_free hopen)
  · apply h.issues.free
    intro a ha
    exact hheld.trans ha
  · refine ⟨fun _ => hphase.named hopen, ?_, ?_, ?_, ?_, ?_⟩
    · intro snapshot candidates heq
      cases heq
    · intro key _
      exact hphase.unlogged key hpast
    · intro issue' hlock
      cases hlock
      exact hphase.eligible issue hheld
    · intro issue' rows heq
      cases heq
      exact ⟨own, alerts, rfl, haudits.claimRow, haudits.own_id, haudits.minted⟩
    · intro issue' heq
      cases heq
  · intro issue' heq
    cases heq

/-- Every step of a call keeps the invariant. -/
theorem ClaimInv.step {s₀ : Store} (h : ClaimInv calls policy hashtext s₀ w)
    (hstep : ClaimStep calls policy hashtext i w w') : ClaimInv calls policy hashtext s₀ w' := by
  have hphase := h.phases i
  cases hstep with
  | blank hstart hblank => exact h.idle (idle_finished (fun issue heq => by cases heq))
  | lock hstart hblank hfree =>
      apply h.move hfree (free_of_rowLock_none rfl)
      · apply PhaseInv.unlocked rfl rfl hblank
        · intro snapshot candidates heq
          cases heq
        · intro key hpast
          cases hpast
      · intro issue heq
        cases heq
  | probe hserialized =>
      have hopen : (w.phase i).isOpen = true := by rw [hserialized]; rfl
      cases hprobe : replayClaim policy w.store (calls i) with
      | error e => exact h.idle (idle_finished (fun issue heq => by cases heq))
      | ok found =>
          cases found with
          | some issue => exact h.idle (idle_finished (fun issue heq => by cases heq))
          | none =>
              apply h.goOn hopen rfl rfl
              · intro snapshot candidates heq
                cases heq
              · intro key _
                exact replayClaim_none hprobe key
  | select hprobed =>
      have hopen : (w.phase i).isOpen = true := by rw [hprobed]; rfl
      have hpast : (w.phase i).pastProbe = true := by rw [hprobed]; rfl
      apply h.goOn hopen rfl rfl
      · intro snapshot candidates heq
        cases heq
        exact h.same
      · intro key _
        exact hphase.unlogged key hpast
  | pass snapshot candidate candidates hscanning =>
      have hopen : (w.phase i).isOpen = true := by rw [hscanning]; rfl
      have hpast : (w.phase i).pastProbe = true := by rw [hscanning]; rfl
      apply h.goOn hopen rfl rfl
      · intro snapshot' candidates' heq
        cases heq
        exact hphase.snapshot _ _ hscanning
      · intro key _
        exact hphase.unlogged key hpast
  | take snapshot candidate candidates row hscanning hrow heligible hreadable hfree =>
      exact h.take hscanning hrow heligible hreadable hfree
  | exhausted snapshot hscanning => exact h.idle (idle_finished (fun issue heq => by cases heq))
  | audit issue own alerts howned haudits => exact h.audit howned haudits
  | auditReplayed issue key emitted tx howned hkey htaken hreplay =>
      have hpast : (w.phase i).pastProbe = true := by rw [howned]; rfl
      exact absurd (hphase.unlogged key hpast hkey) htaken
  | auditRefused issue key e howned hkey htaken hreplay =>
      exact h.idle (idle_finished (fun issue heq => by cases heq))
  | commit issue rows haudited => exact h.commit haudited
  | abort hopen => exact h.idle (idle_finished (fun issue heq => by cases heq))

theorem ClaimInv.run {s₀ : Store} (h : ClaimInv calls policy hashtext s₀ w)
    (hrun : ClaimRun calls policy hashtext w w') : ClaimInv calls policy hashtext s₀ w' :=
  Run.keeps (fun hstep hinv => hinv.step hstep) hrun h

/-- A step leaves the store alone, or commits the claim of an eligible issue. -/
theorem ClaimInv.step_store {s₀ : Store} (h : ClaimInv calls policy hashtext s₀ w)
    (hstep : ClaimStep calls policy hashtext i w w') :
    (w'.store = w.store ∧ ∀ issue, w'.phase i ≠ .finished (.claimed issue)) ∨
      ∃ issue rows row, w'.store = w.store.claim issue (calls i).owner rows ∧
        w'.phase i = .finished (.claimed issue) ∧ w.store.inquiries.find? issue = some row ∧
        eligibleIssue w.store row = true ∧
        inquiryReadFilter policy (calls i).principal row = true := by
  have hquiet : ∀ p : ClaimPhase, (∀ issue, p ≠ .finished (.claimed issue)) →
      (w.move i p).store = w.store ∧
        ∀ issue, (w.move i p).phase i ≠ .finished (.claimed issue) := by
    intro p hp
    rw [World.move_phase_self]
    exact ⟨rfl, hp⟩
  cases hstep with
  | probe hserialized =>
      left
      apply hquiet
      intro issue
      cases replayClaim policy w.store (calls i) with
      | error e => exact fun heq => by cases heq
      | ok found =>
          cases found with
          | some issue' => exact fun heq => by cases heq
          | none => exact fun heq => by cases heq
  | commit issue rows haudited =>
      have hheld : (w.phase i).rowLock = some issue := by rw [haudited]; rfl
      obtain ⟨row, hrow, heligible, hreadable⟩ := (h.phases i).eligible issue hheld
      exact Or.inr ⟨issue, rows, row, rfl, World.write_phase_self, hrow, heligible, hreadable⟩
  | _ =>
      left
      apply hquiet
      intro issue heq
      cases heq

/-- The second request is the first one again: same key, owner, actor and principal. -/
structure ClaimRequest.Retries (r r' : ClaimRequest P) : Prop where
  keyed : r.key ≠ none
  key : r'.key = r.key
  owner : r'.owner = r.owner
  actor : r'.actor = r.actor
  principal : r'.principal = r.principal

omit [DecidableEq ι] in
/-- A probe under the key of a committed claim finds its issue. -/
theorem ClaimInv.replays {s₀ : Store} (h : ClaimInv calls policy hashtext s₀ w) {issue : UUID}
    (hi : w.phase i = .finished (.claimed issue)) (hretry : (calls i).Retries (calls j)) :
    replayClaim policy w.store (calls j) = .ok (some issue) := by
  obtain ⟨_, ⟨row, hrow, hactive, howner, hreadable⟩, hlogged⟩ := (h.phases i).claimed issue hi
  obtain ⟨key, hkey⟩ := Option.ne_none_iff_exists'.mp hretry.keyed
  obtain ⟨own, hown, hclaimrow⟩ := hlogged key hkey
  have hmade : (calls j).made own = true := by
    have hmade := hclaimrow.made
    rw [ClaimRequest.made] at hmade ⊢
    rw [hretry.owner, hretry.actor]
    exact hmade
  have hid : row.id = issue := Table.find?_key hrow
  rw [replayClaim, hretry.key, hkey, Option.bind_some, hown]
  dsimp only
  rw [if_pos hmade, hclaimrow.subject, hrow]
  dsimp only
  rw [hretry.principal, if_pos hreadable, hretry.owner, if_pos ⟨hactive, howner⟩, hid]

/-- How far a retry can have come once its original has claimed the issue. -/
inductive ClaimPhase.Retrying (issue : UUID) : ClaimPhase → Prop where
  | start : Retrying issue .start
  | serialized : Retrying issue .serialized
  | replayed : Retrying issue (.finished (.replayed issue))
  | aborted : Retrying issue (.finished .aborted)

omit [DecidableEq ι] in
theorem ClaimStep.phase_of_ne [DecidableEq ι] (hstep : ClaimStep calls policy hashtext i w w')
    (hji : j ≠ i) : w'.phase j = w.phase j := by
  cases hstep <;> exact World.write_phase_of_ne hji

/-- A call that steps has not finished. -/
theorem ClaimStep.live (hstep : ClaimStep calls policy hashtext i w w') :
    w.phase i = .start ∨ (w.phase i).isOpen = true := by
  cases hstep with
  | blank hphase _ => exact Or.inl hphase
  | lock hphase _ _ => exact Or.inl hphase
  | abort hopen => exact Or.inr hopen
  | probe hphase => exact Or.inr (by rw [hphase]; rfl)
  | select hphase => exact Or.inr (by rw [hphase]; rfl)
  | pass _ _ _ hphase => exact Or.inr (by rw [hphase]; rfl)
  | take _ _ _ _ hphase _ _ _ _ => exact Or.inr (by rw [hphase]; rfl)
  | exhausted _ hphase => exact Or.inr (by rw [hphase]; rfl)
  | audit _ _ _ hphase _ => exact Or.inr (by rw [hphase]; rfl)
  | auditReplayed _ _ _ _ hphase _ _ _ => exact Or.inr (by rw [hphase]; rfl)
  | auditRefused _ _ _ hphase _ _ _ => exact Or.inr (by rw [hphase]; rfl)
  | commit _ _ hphase => exact Or.inr (by rw [hphase]; rfl)

theorem ClaimStep.not_finished (hstep : ClaimStep calls policy hashtext i w w')
    (outcome : ClaimOutcome) : w.phase i ≠ .finished outcome := by
  intro hfinished
  have hlive := hstep.live
  rw [hfinished] at hlive
  rcases hlive with hstart | hopen
  · cases hstart
  · cases hopen

/-- After the original's commit a retry can only wait, replay or be aborted. -/
theorem ClaimInv.retrying_step {s₀ : Store} (h : ClaimInv calls policy hashtext s₀ w)
    {issue : UUID} {k : ι} (hi : w.phase i = .finished (.claimed issue))
    (hretry : (calls i).Retries (calls j)) (hj : (w.phase j).Retrying issue)
    (hstep : ClaimStep calls policy hashtext k w w') :
    w'.phase i = .finished (.claimed issue) ∧ (w'.phase j).Retrying issue := by
  have hki : i ≠ k := by
    intro heq
    subst heq
    exact hstep.not_finished _ hi
  refine ⟨(hstep.phase_of_ne hki).trans hi, ?_⟩
  by_cases hkj : j = k
  · subst hkj
    have hnamed := ((h.phases i).claimed issue hi).1
    have hprobe := h.replays hi hretry
    cases hstep with
    | blank hphase hblank =>
        rw [hretry.owner, hnamed] at hblank
        cases hblank
    | lock hphase hblank hfree =>
        rw [World.move_phase_self]
        exact .serialized
    | probe hphase =>
        rw [hprobe, World.move_phase_self]
        exact .replayed
    | abort hopen =>
        rw [World.move_phase_self]
        exact .aborted
    | select hphase =>
        rw [hphase] at hj
        cases hj
    | pass _ _ _ hphase =>
        rw [hphase] at hj
        cases hj
    | take _ _ _ _ hphase _ _ _ _ =>
        rw [hphase] at hj
        cases hj
    | exhausted _ hphase =>
        rw [hphase] at hj
        cases hj
    | audit _ _ _ hphase _ =>
        rw [hphase] at hj
        cases hj
    | auditReplayed _ _ _ _ hphase _ _ _ =>
        rw [hphase] at hj
        cases hj
    | auditRefused _ _ _ hphase _ _ _ =>
        rw [hphase] at hj
        cases hj
    | commit _ _ hphase =>
        rw [hphase] at hj
        cases hj
  · rw [hstep.phase_of_ne hkj]
    exact hj

theorem ClaimInv.retrying_run {s₀ : Store} (h : ClaimInv calls policy hashtext s₀ w)
    {issue : UUID} (hi : w.phase i = .finished (.claimed issue))
    (hretry : (calls i).Retries (calls j)) (hj : (w.phase j).Retrying issue)
    (hrun : ClaimRun calls policy hashtext w w') :
    ClaimInv calls policy hashtext s₀ w' ∧ w'.phase i = .finished (.claimed issue) ∧
      (w'.phase j).Retrying issue := by
  apply Run.keeps (I := fun w => ClaimInv calls policy hashtext s₀ w ∧
    w.phase i = .finished (.claimed issue) ∧ (w.phase j).Retrying issue) _ hrun ⟨h, hi, hj⟩
  intro k v v' hstep hv
  obtain ⟨hinv, hvi, hvj⟩ := hv
  exact ⟨hinv.step hstep, hinv.retrying_step hvi hretry hvj hstep⟩

/-- The holder of a lock can give up, so the lock can become free. -/
theorem ClaimInv.can_free {s₀ : Store} (h : ClaimInv calls policy hashtext s₀ w)
    (hj : w.phase j = .start) :
    ∃ v, ClaimRun calls policy hashtext w v ∧ v.phase j = .start ∧
      Free (advisoryLock calls hashtext) v j .serialized := by
  by_cases hfree : Free (advisoryLock calls hashtext) w j .serialized
  · exact ⟨w, .refl, hj, hfree⟩
  · simp only [Free, not_forall] at hfree
    obtain ⟨k, a, hja, hka, hkj⟩ := hfree
    have hopen : (w.phase k).isOpen = true := by
      by_contra hclosed
      rw [advisoryLock, if_neg hclosed] at hka
      cases hka
    refine ⟨w.move k (.finished .aborted), Run.single (ClaimStep.abort hopen),
      (World.move_phase_of_ne (Ne.symm hkj)).trans hj, ?_⟩
    intro l b hjb hlb
    by_cases hlk : l = k
    · subst hlk
      rw [World.move_phase_self] at hlb
      cases hlb
    · rw [World.move_phase_of_ne hlk] at hlb
      have hab : a = b := Option.some.inj (hja.symm.trans hjb)
      exact absurd (h.advisory l k b hlb (hab ▸ hka)) hlk

/-- A retry of a committed claim can always return its issue. -/
theorem ClaimInv.can_replay {s₀ : Store} (h : ClaimInv calls policy hashtext s₀ w)
    {issue : UUID} (hi : w.phase i = .finished (.claimed issue))
    (hretry : (calls i).Retries (calls j)) (hj : w.phase j = .start) :
    ∃ v, ClaimRun calls policy hashtext w v ∧ v.phase j = .finished (.replayed issue) := by
  obtain ⟨v, hrun, hvj, hfree⟩ := h.can_free hj
  have hretrying : (w.phase j).Retrying issue := by
    rw [hj]
    exact .start
  obtain ⟨hinv, hvi, _⟩ := h.retrying_run hi hretry hretrying hrun
  have hblank : isBlank (calls j).owner = false := by
    rw [hretry.owner]
    exact ((hinv.phases i).claimed issue hvi).1
  have hlock : ClaimStep calls policy hashtext j v (v.move j .serialized) :=
    ClaimStep.lock hvj hblank hfree
  have hji : i ≠ j := by
    intro heq
    subst heq
    rw [hvi] at hvj
    cases hvj
  have hinv' := hinv.step hlock
  have hlocked_i : (v.move j .serialized).phase i = .finished (.claimed issue) :=
    (World.move_phase_of_ne hji).trans hvi
  have hprobe := @ClaimStep.probe _ _ _ calls policy hashtext j (v.move j .serialized)
    World.move_phase_self
  refine ⟨_, (hrun.tail ⟨j, hlock⟩).tail ⟨j, hprobe⟩, ?_⟩
  rw [hinv'.replays hlocked_i hretry, World.move_phase_self]
  rfl

/-- What the claim queue promises in a state that an interleaving reached. -/
structure ClaimQueueSafe (calls : ι → ClaimRequest P) (policy : Option (AccessPolicy P))
    (hashtext : String → Int) (w : ClaimWorld ι) : Prop where
  once : ∀ i j issue, w.phase i = .finished (.claimed issue) →
    w.phase j = .finished (.claimed issue) → i = j
  keyed : ∀ i j issue issue' key, (calls i).key = some key → (calls j).key = some key →
    w.phase i = .finished (.claimed issue) → w.phase j = .finished (.claimed issue') → i = j
  eligible : ∀ i w' issue, ClaimStep calls policy hashtext i w w' →
    w'.phase i = .finished (.claimed issue) →
    ∃ row ∈ queuedIssues policy w.store (calls i).principal, row.id = issue
  writes : ∀ i w', ClaimStep calls policy hashtext i w w' → w'.store = w.store ∨
    ∃ issue rows, w'.phase i = .finished (.claimed issue) ∧
      w'.store = w.store.claim issue (calls i).owner rows
  kept : ∀ i issue, w.phase i = .finished (.claimed issue) →
    ∃ row, w.store.inquiries.find? issue = some row ∧ row.isActive = true ∧
      row.fields .owner = .text (calls i).owner
  retry : ∀ i j issue, w.phase i = .finished (.claimed issue) → (calls i).Retries (calls j) →
    w.phase j = .start →
    (∃ v, ClaimRun calls policy hashtext w v ∧ v.phase j = .finished (.replayed issue)) ∧
      ∀ v, ClaimRun calls policy hashtext w v →
        (∀ outcome, v.phase j = .finished outcome →
          outcome = .replayed issue ∨ outcome = .aborted) ∧
        ∀ v', ClaimStep calls policy hashtext j v v' → v'.store = v.store

/-- In every interleaving of `claim_next_issue` calls and their retries, from any store, an
issue is claimed at most once, and only while it is in the queue; a key claims at most one
issue, and a retry of a committed claim returns that issue and writes nothing. -/
theorem claimRun_safe (calls : ι → ClaimRequest P) (policy : Option (AccessPolicy P))
    (hashtext : String → Int) (s₀ : Store)
    (hrun : ClaimRun calls policy hashtext ⟨s₀, fun _ => .start⟩ w) :
    ClaimQueueSafe calls policy hashtext w := by
  have h : ClaimInv calls policy hashtext s₀ w := claimInv_start.run hrun
  refine ⟨h.once, h.keyed, ?_, ?_, ?_, ?_⟩
  · intro i w' issue hstep hclaimed
    rcases h.step_store hstep with ⟨_, hquiet⟩ |
      ⟨issue', rows, row, _, hclaimed', hrow, heligible, hreadable⟩
    · exact absurd hclaimed (hquiet issue)
    · rw [hclaimed'] at hclaimed
      cases hclaimed
      refine ⟨row, ?_, Table.find?_key hrow⟩
      rw [queuedIssues, List.mem_mergeSort, List.mem_filter, heligible, hreadable]
      exact ⟨Table.mem_of_find? hrow, rfl⟩
  · intro i w' hstep
    rcases h.step_store hstep with ⟨hstore, _⟩ | ⟨issue, rows, _, hstore, hclaimed, _⟩
    · exact Or.inl hstore
    · exact Or.inr ⟨issue, rows, hclaimed, hstore⟩
  · intro i issue hi
    obtain ⟨_, ⟨row, hrow, hactive, howner, _⟩, _⟩ := (h.phases i).claimed issue hi
    exact ⟨row, hrow, hactive, howner⟩
  · intro i j issue hi hretry hj
    refine ⟨h.can_replay hi hretry hj, ?_⟩
    intro v hv
    have hstart : (w.phase j).Retrying issue := by
      rw [hj]
      exact .start
    obtain ⟨hinv, hvi, hvj⟩ := h.retrying_run hi hretry hstart hv
    refine ⟨?_, ?_⟩
    · intro outcome hfinished
      rw [hfinished] at hvj
      cases hvj with
      | replayed => exact Or.inl rfl
      | aborted => exact Or.inr rfl
    · intro v' hstep
      rcases hinv.step_store hstep with ⟨hstore, _⟩ | ⟨issue', _, _, _, hclaimed, _⟩
      · exact hstore
      · have hafter := (hinv.retrying_step hvi hretry hvj hstep).2
        rw [hclaimed] at hafter
        cases hafter

end Claims

def openIssue : Inquiry :=
  { id := 1
    kind := .issue
    created := 0
    fields := fun c => if c = .status then .text "active".toList else .null }

def oneIssue : Store where
  inquiries := ⟨[openIssue], by decide⟩

/-- A request and its retry. -/
def claimTwice (_ : Bool) : ClaimRequest Unit :=
  { owner := "ann".toList, actor := "ann".toList, key := some 7 }

def claimAudit : Change :=
  ((claimTwice false).emission 1).row 7 [] {} {}

theorem queuedIssues_oneIssue : queuedIssues (P := Unit) none oneIssue none = [openIssue] := by
  have hfilter : (oneIssue.inquiries.rows.filter fun r =>
      eligibleIssue oneIssue r && inquiryReadFilter (P := Unit) none none r) = [openIssue] := rfl
  rw [queuedIssues, hfilter, List.mergeSort_singleton]

theorem claimRun_safe_retried : ∃ w : ClaimWorld Bool,
    ClaimRun claimTwice none (fun _ => 0) ⟨oneIssue, fun _ => .start⟩ w ∧
      w.phase false = .finished (.claimed 1) ∧ w.phase true = .start ∧
      ClaimQueueSafe claimTwice none (fun _ => 0) w := by
  let start : ClaimWorld Bool := ⟨oneIssue, fun _ => .start⟩
  let locked := start.move false .serialized
  let probed := locked.move false .probed
  let scanning := probed.move false (.scanning oneIssue [openIssue])
  let owned := scanning.move false (.owned 1)
  let audited := owned.move false (.audited 1 [claimAudit])
  let claimed := audited.write false (oneIssue.claim 1 "ann".toList [claimAudit])
    (.finished (.claimed 1))
  have hlock : ClaimStep claimTwice none (fun _ => 0) false start locked := by
    apply ClaimStep.lock rfl rfl
    intro j a _ hj
    cases hj
  have hprobe : ClaimStep claimTwice none (fun _ => 0) false locked probed :=
    ClaimStep.probe rfl
  have hselect : ClaimStep claimTwice none (fun _ => 0) false probed scanning := by
    have hstep := @ClaimStep.select _ _ _ claimTwice none (fun _ => 0) false probed rfl
    have hqueue : queuedIssues none probed.store (claimTwice false).principal = [openIssue] :=
      queuedIssues_oneIssue
    rw [hqueue] at hstep
    exact hstep
  have htake : ClaimStep claimTwice none (fun _ => 0) false scanning owned := by
    apply ClaimStep.take oneIssue openIssue [] openIssue rfl rfl rfl rfl
    intro j a _ hj
    cases j with
    | false => rfl
    | true => cases hj
  have haudit : ClaimStep claimTwice none (fun _ => 0) false owned audited := by
    apply ClaimStep.audit 1 claimAudit [] rfl
    refine ⟨⟨openIssue, rfl, rfl⟩, ?_, by simp, by simp, ?_, ?_⟩
    · intro key hkey
      exact Option.some.inj hkey
    · intro id _
      refine ⟨rfl, ?_⟩
      intro j issue rows hj
      cases j with
      | false => cases hj
      | true => cases hj
    · intro id hid hkey
      have hseven : id = 7 := by simpa [claimAudit, Emission.row] using hid
      exact absurd (congrArg some hseven.symm) hkey
  have hcommit : ClaimStep claimTwice none (fun _ => 0) false audited claimed :=
    ClaimStep.commit 1 [claimAudit] rfl
  have hrun : ClaimRun claimTwice none (fun _ => 0) start claimed :=
    (((((Run.single hlock).tail ⟨_, hprobe⟩).tail ⟨_, hselect⟩).tail ⟨_, htake⟩).tail
      ⟨_, haudit⟩).tail ⟨_, hcommit⟩
  exact ⟨claimed, hrun, rfl, rfl, claimRun_safe claimTwice none (fun _ => 0) oneIssue hrun⟩

end Trackinizer
