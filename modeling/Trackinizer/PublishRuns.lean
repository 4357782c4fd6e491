import Trackinizer.Lib.Interleave
import Trackinizer.PublishGraph

namespace Trackinizer.Publish

open Keyed Transact Interleave

section Reads

variable {η : Type}

/-- The numbers of a report's revisions, in the order they were made. -/
def revisionNumbers (s : PublishStore η) (reportId : UUID) : List Nat :=
  (s.revisions.rows.filter fun r => decide (r.reportId = reportId)).map Revision.revision

theorem foldr_max_range' (n : Nat) : (List.range' 1 n).foldr max 0 = n := by
  induction n with
  | zero => rfl
  | succ n ih =>
    have hfold : ∀ (xs : List Nat) (m : Nat), xs.foldr max m = max (xs.foldr max 0) m := by
      intro xs m
      induction xs with
      | nil => simp
      | cons x xs ih => rw [List.foldr_cons, List.foldr_cons, ih, max_assoc]
    rw [List.range'_concat, List.foldr_append, List.foldr_cons, List.foldr_nil, hfold, ih]
    omega

/-- While they are `1` to `n`, the next number is `n + 1`. -/
theorem nextRevision_of_numbered {s : PublishStore η} {reportId : UUID} {n : Nat}
    (h : revisionNumbers s reportId = List.range' 1 n) : nextRevision s reportId = n + 1 := by
  unfold nextRevision
  unfold revisionNumbers at h
  rw [h, foldr_max_range']

theorem keyed?_eq_none {s : PublishStore η} {userId key : UUID}
    (h : keyed? s userId key = none) : ∀ r ∈ s.revisions.rows,
      ¬ (r.authorId = userId ∧ r.publishKey = key) := by
  intro r hr hkeyed
  have hnone := List.find?_eq_none.mp h r hr
  exact hnone (decide_eq_true hkeyed)

theorem keyed?_eq_some {s : PublishStore η} {userId key : UUID} {row : Revision η}
    (h : keyed? s userId key = some row) :
    row ∈ s.revisions.rows ∧ row.authorId = userId ∧ row.publishKey = key := by
  have hrow := List.find?_some h
  exact ⟨List.mem_of_find?_eq_some h, of_decide_eq_true hrow⟩

end Reads

section Commits

variable {P η : Type} {hash : Body → η} {now : Nat} {call : Publication P} {draft : Draft}
  {revision : Nat} {s s' : PublishStore η} {row : Revision η}

/-- What the commit of a publication does. -/
structure Published (hash : Body → η) (call : Publication P) (draft : Draft) (revision : Nat)
    (row : Revision η) (s s' : PublishStore η) : Prop where
  reportId : row.reportId = draft.report.id
  number : row.revision = revision
  author : row.authorId = call.userId
  key : row.publishKey = call.key
  request : row.requestHash = hash call.body
  bytes : row.contentBytes = draft.bytes
  rows : s'.revisions.rows = s.revisions.rows ++ [row]
  unkeyed : ∀ r ∈ s.revisions.rows, ¬ (r.authorId = row.authorId ∧ r.publishKey = row.publishKey)
  artifact : ∀ r ∈ s.revisions.rows, r.artifactId ≠ row.artifactId
  reports : ∀ id report, s.reports.find? id = some report → s'.reports.find? id = some report
  opened : draft.opens = true → s'.reports.find? draft.report.id = some draft.report
  graph : Grows s.toStore s'.toStore row.artifactId call.body.issueId
    call.body.previousArtifactId

theorem insertReport_ok {reports reports' : Table Report.id} {draft : Draft}
    (h : insertReport reports draft = .ok reports') :
    (∀ id report, reports.find? id = some report → reports'.find? id = some report) ∧
      (draft.opens = true → reports'.find? draft.report.id = some draft.report) := by
  unfold insertReport at h
  split at h
  next =>
    split at h
    next inserted hinsert =>
      cases h
      have hrows := (Table.insert?_eq_some.mp hinsert).2
      exact ⟨fun id report hid => Table.find?_some_of_append hrows hid,
        fun _ => Table.find?_insert?_self hinsert⟩
    next => cases h
  next hopens =>
    cases h
    exact ⟨fun _ _ hid => hid, fun h => absurd h hopens⟩

theorem insertRevision_ok {revisions revisions' : Table (Revision.pk (η := η))} {row : Revision η}
    (h : insertRevision revisions row = .ok revisions') :
    revisions'.rows = revisions.rows ++ [row] ∧
      (∀ r ∈ revisions.rows, ¬ (r.authorId = row.authorId ∧ r.publishKey = row.publishKey)) ∧
      ∀ r ∈ revisions.rows, r.artifactId ≠ row.artifactId := by
  unfold insertRevision at h
  split at h
  next => cases h
  next =>
    split at h
    next => cases h
    next hunique =>
      split at h
      next inserted hinsert =>
        cases h
        have hrow : ∀ r ∈ revisions.rows, ¬ (r.artifactId = row.artifactId ∨
            r.authorId = row.authorId ∧ r.publishKey = row.publishKey) := by
          intro r hr htaken
          exact hunique (List.any_eq_true.mpr ⟨r, hr, decide_eq_true htaken⟩)
        exact ⟨(Table.insert?_eq_some.mp hinsert).2, fun r hr hkey => hrow r hr (Or.inr hkey),
          fun r hr hid => hrow r hr (Or.inl hid)⟩
      next => cases h

theorem publishOnConn_ok (hinv : EdgeGraphInv s.toStore)
    (h : publishOnConn hash now call draft revision s = .ok (row, s')) :
    Published hash call draft revision row s s' := by
  obtain ⟨reports, hreports, hrest⟩ := except_bind_ok.mp h
  obtain ⟨⟨artifactId, tx⟩, hgraph, hrest⟩ := except_bind_ok.mp hrest
  obtain ⟨revisions, hrevisions, hret⟩ := except_bind_ok.mp hrest
  cases hret
  obtain ⟨hkept, hopened⟩ := insertReport_ok hreports
  obtain ⟨hrows, hkey, hartifact⟩ := insertRevision_ok hrevisions
  have hgrows := publishArtifact_grows hinv rfl hgraph
  exact ⟨rfl, rfl, rfl, rfl, rfl, rfl, hrows, hkey, hartifact, hkept, hopened, hgrows⟩

theorem Published.mem (h : Published hash call draft revision row s s') {r : Revision η} :
    r ∈ s'.revisions.rows ↔ r ∈ s.revisions.rows ∨ r = row := by
  rw [h.rows, List.mem_append, List.mem_singleton]

/-- Rows that differ in some column still do when the new one differs from them in it. -/
theorem Published.nodup (h : Published hash call draft revision row s s') {α : Type}
    {f : Revision η → α} (hold : (s.revisions.rows.map f).Nodup)
    (hnew : ∀ r ∈ s.revisions.rows, f r ≠ f row) : (s'.revisions.rows.map f).Nodup := by
  rw [h.rows, List.map_append, List.nodup_append]
  refine ⟨hold, List.nodup_singleton _, ?_⟩
  intro a ha b hb
  obtain ⟨r, hr, rfl⟩ := List.mem_map.mp ha
  rw [List.mem_singleton.mp hb]
  exact hnew r hr

/-- The bytes of the others stay, and the author's grow by the draft's. -/
theorem Published.usedBytes (h : Published hash call draft revision row s s') (userId : UUID) :
    usedBytes s' userId = usedBytes s userId + if userId = call.userId then draft.bytes else 0 := by
  unfold Publish.usedBytes
  rw [h.rows, List.filter_append, List.map_append, List.sum_append]
  by_cases huser : userId = call.userId
  · simp [huser, h.author, h.bytes]
  · simp [huser, h.author, Ne.symm huser]

theorem Published.revisionNumbers (h : Published hash call draft revision row s s')
    (reportId : UUID) : revisionNumbers s' reportId =
      revisionNumbers s reportId ++ if reportId = draft.report.id then [revision] else [] := by
  unfold Publish.revisionNumbers
  rw [h.rows, List.filter_append, List.map_append]
  by_cases hreport : reportId = draft.report.id
  · simp [hreport, h.reportId, h.number]
  · simp [hreport, h.reportId, Ne.symm hreport]

theorem Published.nextRevision_of_ne (h : Published hash call draft revision row s s')
    {reportId : UUID} (hne : reportId ≠ draft.report.id) :
    nextRevision s' reportId = nextRevision s reportId := by
  have hnumbers := h.revisionNumbers reportId
  rw [if_neg hne, List.append_nil] at hnumbers
  unfold Publish.revisionNumbers at hnumbers
  unfold nextRevision
  rw [hnumbers]

end Commits

section Phases

variable {η : Type}

/-- From its probe to its end a call knows that its key is new. -/
def Phase.probed? : Phase η → Bool
  | .start | .held | .finished _ => false
  | _ => true

/-- The draft of a call that its author's quota admits. -/
def Phase.admitted? : Phase η → Option Draft
  | .measured draft | .numbered draft _ => some draft
  | _ => none

theorem Phase.probed_isOpen {p : Phase η} (h : p.probed? = true) : p.isOpen = true := by
  cases p with
  | start => cases h
  | held => cases h
  | finished ending => cases h
  | _ => rfl

theorem Phase.admitted?_isOpen {p : Phase η} {draft : Draft} (h : p.admitted? = some draft) :
    p.isOpen = true := by
  cases p with
  | start => cases h
  | finished ending => cases h
  | _ => rfl

end Phases

section Invariant

variable {ι P η : Type} (calls : ι → Publication P) (hash : Body → η)

/-- A revision as its call made it. -/
structure MadeBy (call : Publication P) (s : PublishStore η) (row : Revision η) : Prop where
  stored : row ∈ s.revisions.rows
  author : row.authorId = call.userId
  key : row.publishKey = call.key
  request : row.requestHash = hash call.body
  report : ∃ report, s.reports.find? row.reportId = some report ∧ report.issueId = call.body.issueId
  artifact : s.HasRow row.artifactId .artifact
  linked : Linked s.toStore row.artifactId call.body.issueId call.body.previousArtifactId

/-- What a call's end says of the tables. -/
def EndingOk (call : Publication P) (s : PublishStore η) : Ending η → Prop
  | .published row => MadeBy hash call s row
  | .replayed row => row ∈ s.revisions.rows ∧ row.authorId = call.userId ∧
      row.publishKey = call.key ∧ row.requestHash = hash call.body
  | .conflict => ∃ row ∈ s.revisions.rows, row.authorId = call.userId ∧
      row.publishKey = call.key ∧ row.requestHash ≠ hash call.body
  | .refused _ | .raised _ | .aborted => True

/-- What a call's phase says of the tables. -/
structure PhaseOk (call : Publication P) (s : PublishStore η) (p : Phase η) : Prop where
  unkeyed : p.probed? = true → ∀ r ∈ s.revisions.rows,
    ¬ (r.authorId = call.userId ∧ r.publishKey = call.key)
  report : ∀ report opens, p.report? = some (report, opens) →
    report.issueId = call.body.issueId ∧
      (opens = false → s.reports.find? report.id = some report)
  within : ∀ draft, p.admitted? = some draft → usedBytes s call.userId + draft.bytes ≤ quota
  next : ∀ draft revision, p = .numbered draft revision →
    revision = nextRevision s draft.report.id
  ending : ∀ e, p = .finished e → EndingOk hash call s e

/-- The invariant of the publications. -/
structure PublishInv (w : PublishWorld ι η) : Prop where
  authors : Exclusive (authorLock calls) w
  reports : Exclusive reportLock w
  graph : EdgeGraphInv w.store.toStore
  phases : ∀ i, PhaseOk hash (calls i) w.store (w.phase i)
  numbered : ∀ reportId, ∃ n, revisionNumbers w.store reportId = List.range' 1 n
  within : ∀ userId, usedBytes w.store userId ≤ quota
  keyed : (w.store.revisions.rows.map fun r => (r.authorId, r.publishKey)).Nodup
  artifacts : (w.store.revisions.rows.map Revision.artifactId).Nodup
  made : ∀ r ∈ w.store.revisions.rows, ∃ i, w.phase i = .finished (.published r)

variable {calls hash} {i : ι} {w : PublishWorld ι η} {call : Publication P}
  {s : PublishStore η} {p p' : Phase η}

theorem phaseOk_finished {e : Ending η} (h : EndingOk hash call s e) :
    PhaseOk hash call s (.finished e) := by
  refine ⟨?_, ?_, ?_, ?_, ?_⟩
  · intro hprobed
    cases hprobed
  · intro report opens hreport
    cases hreport
  · intro draft hadmitted
    cases hadmitted
  · intro draft revision hnumbered
    cases hnumbered
  · intro e' he
    cases he
    exact h

theorem phaseOk_held : PhaseOk hash call s .held := by
  refine ⟨?_, ?_, ?_, ?_, ?_⟩
  · intro hprobed
    cases hprobed
  · intro report opens hreport
    cases hreport
  · intro draft hadmitted
    cases hadmitted
  · intro draft revision hnumbered
    cases hnumbered
  · intro e he
    cases he

/-- A call whose key is new goes on with what it learns of its report and its quota. -/
theorem phaseOk_probed (hopen : p.isOpen = true) (hunkeyed : ∀ r ∈ s.revisions.rows,
      ¬ (r.authorId = call.userId ∧ r.publishKey = call.key))
    (hreport : ∀ report opens, p.report? = some (report, opens) →
      report.issueId = call.body.issueId ∧
        (opens = false → s.reports.find? report.id = some report))
    (hwithin : ∀ draft, p.admitted? = some draft →
      usedBytes s call.userId + draft.bytes ≤ quota)
    (hnext : ∀ draft revision, p = .numbered draft revision →
      revision = nextRevision s draft.report.id) : PhaseOk hash call s p := by
  refine ⟨fun _ => hunkeyed, hreport, hwithin, hnext, ?_⟩
  rintro e rfl
  cases hopen

/-- The key of a call that goes on is new, and of one that ends it is that of the row found. -/
theorem phaseOk_afterProbe [DecidableEq η] :
    PhaseOk hash call s (afterProbe hash call (keyed? s call.userId call.key)) := by
  cases hkeyed : keyed? s call.userId call.key with
  | none =>
    exact phaseOk_probed rfl (keyed?_eq_none hkeyed) (by simp [afterProbe, Phase.report?])
      (by simp [afterProbe, Phase.admitted?]) (by simp [afterProbe])
  | some row =>
    obtain ⟨hmem, hauthor, hkey⟩ := keyed?_eq_some hkeyed
    by_cases hsame : row.requestHash = hash call.body
    · rw [afterProbe, if_pos hsame]
      exact phaseOk_finished ⟨hmem, hauthor, hkey, hsame⟩
    · rw [afterProbe, if_neg hsame]
      exact phaseOk_finished ⟨row, hmem, hauthor, hkey, hsame⟩

theorem phaseOk_afterSource {policy : Option (AccessPolicy P)}
    (hunkeyed : ∀ r ∈ s.revisions.rows, ¬ (r.authorId = call.userId ∧ r.publishKey = call.key)) :
    PhaseOk hash call s (afterSource policy s.toStore call) := by
  unfold afterSource
  split
  next =>
    exact phaseOk_probed rfl hunkeyed (by simp [Phase.report?]) (by simp [Phase.admitted?])
      (by simp)
  next => exact phaseOk_finished trivial

theorem phaseOk_afterSnapshot {policy : Option (AccessPolicy P)}
    {contentBytes : Store → Content → Nat} {report : Report} {opens : Bool}
    (h : PhaseOk hash call s (.reported report opens)) :
    PhaseOk hash call s (afterSnapshot policy contentBytes s.toStore call report opens) := by
  unfold afterSnapshot
  split
  next => exact phaseOk_finished trivial
  next content _ =>
    exact phaseOk_probed rfl (h.unkeyed rfl) h.report (by simp [Phase.admitted?]) (by simp)

theorem phaseOk_afterQuota {draft : Draft} (h : PhaseOk hash call s (.frozen draft)) :
    PhaseOk hash call s (afterQuota s call draft) := by
  unfold afterQuota
  split
  next => exact phaseOk_finished trivial
  next hquota =>
    refine phaseOk_probed rfl (h.unkeyed rfl) h.report ?_ (by simp)
    intro other hother
    cases hother
    omega

theorem PhaseOk.numbered {draft : Draft} (h : PhaseOk hash call s (.measured draft)) :
    PhaseOk hash call s (.numbered draft (nextRevision s draft.report.id)) := by
  refine phaseOk_probed rfl (h.unkeyed rfl) h.report h.within ?_
  intro other revision hnumbered
  cases hnumbered
  rfl

/-- A report found by an artifact is a row under its own id. -/
theorem reportOf?_stored {artifactId : UUID} {report : Report}
    (h : reportOf? s artifactId = some report) : s.reports.find? report.id = some report := by
  obtain ⟨r, _, hfind⟩ := Option.bind_eq_some_iff.mp h
  rwa [Table.find?_key hfind]

theorem free_author_closed (hclosed : p.isOpen = false) : Free (authorLock calls) w i p := by
  intro j a ha
  rw [authorLock, hclosed] at ha
  cases ha

theorem free_report_none (hnone : p.report? = none) : Free reportLock w i p := by
  intro j a ha
  rw [reportLock, hnone] at ha
  cases ha

section Moves

variable (h : PublishInv calls hash w)

include h

/-- The lock of its author stays with a call that has it. -/
theorem free_author (hopen : (w.phase i).isOpen = true) : Free (authorLock calls) w i p := by
  apply h.authors.free
  intro a ha
  unfold authorLock at ha ⊢
  rw [if_pos hopen]
  split at ha
  next => exact ha
  next => cases ha

theorem free_report (hreport : ∀ r, p.report? = some r → (w.phase i).report? = some r) :
    Free reportLock w i p := by
  apply h.reports.free
  intro a ha
  obtain ⟨r, hr, hid⟩ := Option.map_eq_some_iff.mp ha
  unfold reportLock
  rw [hreport r hr, Option.map_some, hid]

/-- A step that leaves the tables keeps the invariant. -/
theorem PublishInv.move [DecidableEq ι] (hphase : ∀ e, w.phase i ≠ .finished e)
    (hauthor : Free (authorLock calls) w i p) (hreport : Free reportLock w i p)
    (hok : PhaseOk hash (calls i) w.store p) : PublishInv calls hash (w.move i p) := by
  refine ⟨h.authors.write hauthor, h.reports.write hreport, h.graph, ?_, h.numbered, h.within,
    h.keyed, h.artifacts, ?_⟩
  · exact World.forall_write (Q := fun j q => PhaseOk hash (calls j) w.store q) hok
      fun j _ => h.phases j
  · intro r hr
    obtain ⟨j, hj⟩ := h.made r hr
    refine ⟨j, ?_⟩
    rw [World.move_phase_of_ne]
    · exact hj
    · rintro rfl
      exact hphase _ hj

/-- Two calls of one author do not both have it locked. -/
theorem author_ne {j : ι} (hopen : (w.phase i).isOpen = true) (hother : (w.phase j).isOpen = true)
    (hne : j ≠ i) : (calls j).userId ≠ (calls i).userId := by
  intro huser
  have hlock : ∀ k, (w.phase k).isOpen = true →
      authorLock calls k (w.phase k) = some (calls k).userId := fun k hk => if_pos hk
  exact hne (h.authors j i (calls i).userId (huser ▸ hlock j hother) (hlock i hopen))

end Moves

section Frames

variable {draft : Draft} {revision : Nat} {row : Revision η} {s' : PublishStore η}
  {other : Publication P} (hpub : Published hash other draft revision row s s')

include hpub

theorem MadeBy.publish {made : Revision η} (h : MadeBy hash call s made) :
    MadeBy hash call s' made := by
  obtain ⟨report, hfind, hissue⟩ := h.report
  exact ⟨hpub.mem.mpr (Or.inl h.stored), h.author, h.key, h.request,
    ⟨report, hpub.reports _ _ hfind, hissue⟩, hpub.graph.rows _ _ h.artifact,
    h.linked.grows hpub.graph h.artifact⟩

theorem EndingOk.publish {e : Ending η} (h : EndingOk hash call s e) :
    EndingOk hash call s' e := by
  cases e with
  | published made => exact MadeBy.publish hpub h
  | replayed found => exact ⟨hpub.mem.mpr (Or.inl h.1), h.2⟩
  | conflict =>
    obtain ⟨found, hmem, hfound⟩ := h
    exact ⟨found, hpub.mem.mpr (Or.inl hmem), hfound⟩
  | refused message => trivial
  | raised e => trivial
  | aborted => trivial

/-- The commit of a call leaves what the others know: their authors and reports are not its own. -/
theorem PhaseOk.publish (h : PhaseOk hash call s p)
    (hauthor : p.isOpen = true → call.userId ≠ other.userId)
    (hreport : ∀ r, p.report? = some r → r.1.id ≠ draft.report.id) : PhaseOk hash call s' p := by
  refine ⟨?_, ?_, ?_, ?_, fun e he => (h.ending e he).publish hpub⟩
  · intro hprobed r hr hkeyed
    rcases hpub.mem.mp hr with hold | rfl
    · exact h.unkeyed hprobed r hold hkeyed
    · exact hauthor (Phase.probed_isOpen hprobed) (hkeyed.1.symm.trans hpub.author)
  · intro report opens hr
    obtain ⟨hissue, hstored⟩ := h.report report opens hr
    exact ⟨hissue, fun hopens => hpub.reports _ _ (hstored hopens)⟩
  · intro mine hmine
    have hbytes := hpub.usedBytes call.userId
    rw [if_neg (hauthor (Phase.admitted?_isOpen hmine))] at hbytes
    have hwithin := h.within mine hmine
    omega
  · rintro mine number rfl
    rw [hpub.nextRevision_of_ne (hreport _ rfl)]
    exact h.next mine number rfl

end Frames

/-- What a commit made is as its call asked. -/
theorem Published.madeBy {draft : Draft} {revision : Nat} {row : Revision η}
    {s' : PublishStore η} (hpub : Published hash call draft revision row s s')
    (h : PhaseOk hash call s (.numbered draft revision)) : MadeBy hash call s' row := by
  obtain ⟨hissue, hstored⟩ := h.report draft.report draft.opens rfl
  refine ⟨hpub.mem.mpr (Or.inr rfl), hpub.author, hpub.key, hpub.request,
    ⟨draft.report, ?_, hissue⟩, hpub.graph.artifact, hpub.graph.linked⟩
  rw [hpub.reportId]
  cases hopens : draft.opens with
  | true => exact hpub.opened hopens
  | false => exact hpub.reports _ _ (hstored hopens)

theorem Published.numbered {draft : Draft} {revision : Nat} {row : Revision η}
    {s' : PublishStore η} (hpub : Published hash call draft revision row s s')
    (hnext : revision = nextRevision s draft.report.id)
    (h : ∀ reportId, ∃ n, Publish.revisionNumbers s reportId = List.range' 1 n) (reportId : UUID) :
    ∃ n, Publish.revisionNumbers s' reportId = List.range' 1 n := by
  obtain ⟨n, hn⟩ := h reportId
  rw [hpub.revisionNumbers, hn]
  by_cases hreport : reportId = draft.report.id
  · refine ⟨n + 1, ?_⟩
    rw [if_pos hreport, hnext, ← hreport, nextRevision_of_numbered hn, List.range'_concat]
    simp [Nat.add_comm]
  · exact ⟨n, by rw [if_neg hreport, List.append_nil]⟩

theorem PublishInv.commit [DecidableEq ι] {draft : Draft} {revision : Nat} {row : Revision η}
    (h : PublishInv calls hash w) (hphase : w.phase i = .numbered draft revision)
    (hpub : Published hash (calls i) draft revision row w.store s) :
    PublishInv calls hash (w.write i s (.finished (.published row))) := by
  have hmine : PhaseOk hash (calls i) w.store (.numbered draft revision) := hphase ▸ h.phases i
  have hopen : (w.phase i).isOpen = true := by
    rw [hphase]
    rfl
  refine ⟨h.authors.write (free_author_closed rfl), h.reports.write (free_report_none rfl),
    hpub.graph.inv, ?_, hpub.numbered (hmine.next _ _ rfl) h.numbered, ?_, ?_, ?_, ?_⟩
  · refine World.forall_write (Q := fun j q => PhaseOk hash (calls j) s q)
      (phaseOk_finished (hpub.madeBy hmine)) ?_
    intro j hj
    refine (h.phases j).publish hpub (fun hother => author_ne h hopen hother hj) ?_
    intro r hr hid
    refine hj (h.reports j i draft.report.id ?_ ?_)
    · rw [reportLock, hr, Option.map_some, hid]
    · rw [reportLock, hphase]
      rfl
  · intro userId
    have hbytes := hpub.usedBytes userId
    have hwithin := hmine.within draft rfl
    show usedBytes s userId ≤ quota
    rw [hbytes]
    split
    next huser =>
      rw [huser]
      exact hwithin
    next => exact h.within userId
  · refine hpub.nodup h.keyed fun r hr hkeyed => hpub.unkeyed r hr ?_
    exact Prod.mk.inj hkeyed
  · exact hpub.nodup h.artifacts hpub.artifact
  · intro r hr
    rcases hpub.mem.mp hr with hold | rfl
    · obtain ⟨j, hj⟩ := h.made r hold
      refine ⟨j, ?_⟩
      rw [World.write_phase_of_ne]
      · exact hj
      · rintro rfl
        rw [hphase] at hj
        cases hj
    · exact ⟨i, World.write_phase_self⟩

section Steps

variable [DecidableEq ι] [DecidableEq η] {policy : Option (AccessPolicy P)}
  {contentBytes : Store → Content → Nat} {w' : PublishWorld ι η}

/-- What one step of a call can be: a move that leaves the tables, or the commit of its revision. -/
theorem publishStep_cases (hinv : PublishInv calls hash w)
    (hstep : PublishStep calls policy hash contentBytes i w w') :
    (∃ p, w' = w.move i p ∧ (∀ e, w.phase i ≠ .finished e) ∧ (∀ r, p ≠ .finished (.published r)) ∧
        Free (authorLock calls) w i p ∧ Free reportLock w i p ∧ PhaseOk hash (calls i) w.store p) ∨
      ∃ now draft revision row s, w.phase i = .numbered draft revision ∧
        publishOnConn hash now (calls i) draft revision w.store = .ok (row, s) ∧
        w' = w.write i s (.finished (.published row)) := by
  have hok := hinv.phases i
  cases hstep with
  | lock hphase _ hfree =>
    left
    exact ⟨_, rfl, by simp [hphase], by simp, hfree, free_report_none rfl, phaseOk_held⟩
  | inactive hphase _ =>
    left
    exact ⟨_, rfl, by simp [hphase], by simp, free_author_closed rfl, free_report_none rfl,
      phaseOk_finished trivial⟩
  | probe hphase =>
    left
    refine ⟨_, rfl, by simp [hphase], ?_, free_author hinv (hphase ▸ rfl), ?_, phaseOk_afterProbe⟩
    · intro r
      unfold afterProbe
      split
      next => simp
      next => split <;> simp
    · apply free_report_none
      unfold afterProbe
      split
      next => rfl
      next => split <;> rfl
  | source hphase =>
    left
    rw [hphase] at hok
    refine ⟨_, rfl, by simp [hphase], ?_, free_author hinv (hphase ▸ rfl), ?_,
      phaseOk_afterSource (hok.unkeyed rfl)⟩
    · intro r
      unfold afterSource
      split <;> simp
    · apply free_report_none
      unfold afterSource
      split <;> rfl
  | openReport reportId hphase _ _ hfree =>
    left
    rw [hphase] at hok
    refine ⟨_, rfl, by simp [hphase], by simp, free_author hinv (hphase ▸ rfl), hfree,
      phaseOk_probed rfl (hok.unkeyed rfl) ?_ (by simp [Phase.admitted?]) (by simp)⟩
    intro report opens hreport
    cases hreport
    exact ⟨rfl, fun hfalse => by cases hfalse⟩
  | revise previous report hphase _ hreport hissue hfree =>
    left
    rw [hphase] at hok
    refine ⟨_, rfl, by simp [hphase], by simp, free_author hinv (hphase ▸ rfl), hfree,
      phaseOk_probed rfl (hok.unkeyed rfl) ?_ (by simp [Phase.admitted?]) (by simp)⟩
    intro found opens hfound
    cases hfound
    exact ⟨hissue, fun _ => reportOf?_stored hreport⟩
  | stray previous hphase _ _ =>
    left
    exact ⟨_, rfl, by simp [hphase], by simp, free_author_closed rfl, free_report_none rfl,
      phaseOk_finished trivial⟩
  | freeze report opens hphase =>
    left
    rw [hphase] at hok
    refine ⟨_, rfl, by simp [hphase], ?_, free_author hinv (hphase ▸ rfl), ?_,
      phaseOk_afterSnapshot hok⟩
    · intro r
      unfold afterSnapshot
      split <;> simp
    · apply free_report hinv
      intro r hr
      rw [hphase]
      unfold afterSnapshot at hr
      split at hr
      next => cases hr
      next => exact hr
  | measure draft hphase =>
    left
    rw [hphase] at hok
    refine ⟨_, rfl, by simp [hphase], ?_, free_author hinv (hphase ▸ rfl), ?_,
      phaseOk_afterQuota hok⟩
    · intro r
      unfold afterQuota
      split <;> simp
    · apply free_report hinv
      intro r hr
      rw [hphase]
      unfold afterQuota at hr
      split at hr
      next => cases hr
      next => exact hr
  | number draft hphase =>
    left
    rw [hphase] at hok
    refine ⟨_, rfl, by simp [hphase], by simp, free_author hinv (hphase ▸ rfl), ?_, hok.numbered⟩
    apply free_report hinv
    intro r hr
    rw [hphase]
    exact hr
  | commit now draft revision row s hphase hrun =>
    right
    exact ⟨now, draft, revision, row, s, hphase, hrun, rfl⟩
  | fail now draft revision e hphase _ =>
    left
    exact ⟨_, rfl, by simp [hphase], by simp, free_author_closed rfl, free_report_none rfl,
      phaseOk_finished trivial⟩
  | abort hopen =>
    left
    refine ⟨_, rfl, ?_, by simp, free_author_closed rfl, free_report_none rfl,
      phaseOk_finished trivial⟩
    intro e he
    rw [he] at hopen
    cases hopen

theorem publishStep_inv (hstep : PublishStep calls policy hash contentBytes i w w')
    (h : PublishInv calls hash w) : PublishInv calls hash w' := by
  rcases publishStep_cases h hstep with ⟨p, rfl, hphase, _, hauthor, hreport, hok⟩ |
    ⟨now, draft, revision, row, s, hphase, hrun, rfl⟩
  · exact h.move hphase hauthor hreport hok
  · exact h.commit hphase (publishOnConn_ok h.graph hrun)

end Steps

end Invariant

end Trackinizer.Publish
