import Trackinizer.PublishRuns

namespace Trackinizer.Publish

open Keyed Transact Interleave Relation

section Links

variable {s : Store} {artifactId issueId : UUID} {previous : Option UUID}

/-- The produced-by edge of an artifact and its issue is the only one of the pair. -/
theorem Linked.produced_unique (h : Linked s artifactId issueId previous) (hinv : EdgeGraphInv s) :
    ∃ e ∈ s.edges.rows, e.toEdgeKey = ⟨artifactId, issueId, .producedBy⟩ ∧
      ∀ e' ∈ s.edges.rows, e'.kind = .producedBy →
        e'.toEdgeKey.SamePair ⟨artifactId, issueId, .producedBy⟩ → e' = e := by
  obtain ⟨e, he⟩ := h.produced
  refine ⟨e, Table.mem_of_find? he, Table.find?_key he, ?_⟩
  intro e' he' hkind hpair
  rcases hpair with ⟨hfrom, hto⟩ | ⟨hfrom, hto⟩
  · have hkey : e'.toEdgeKey = e.toEdgeKey := by
      rw [Table.find?_key he]
      exact EdgeKey.eq_iff.mpr ⟨hfrom, hto, hkind⟩
    exact Table.eq_of_key_eq he' (Table.mem_of_find? he) hkey
  · -- an edge the other way would close a cycle
    exfalso
    have hkey : e'.toEdgeKey = ⟨issueId, artifactId, .producedBy⟩ :=
      EdgeKey.eq_iff.mpr ⟨hfrom, hto, hkind⟩
    have hback : (⟨issueId, artifactId, .producedBy⟩ : EdgeKey) ∈ s.edgeKeys :=
      ⟨e', Table.find?_eq_some.mpr ⟨he', hkey⟩⟩
    have hcycle : TransGen (fun a b : UUID => (⟨a, b, .producedBy⟩ : EdgeKey) ∈ s.edgeKeys)
        artifactId artifactId := (TransGen.single h.produced).tail hback
    exact hinv.edgesOk .producedBy rfl artifactId hcycle

/-- An artifact's supersedes edge is that of the artifact it revised, if it revised one. -/
theorem Linked.supersedes_iff (h : Linked s artifactId issueId previous) (p : UUID) :
    (∃ e ∈ s.edges.rows, e.toEdgeKey = ⟨artifactId, p, .supersedes⟩) ↔ previous = some p := by
  rw [← h.supersedes ⟨artifactId, p, .supersedes⟩ rfl rfl]
  constructor
  · rintro ⟨e, he, hkey⟩
    exact ⟨e, Table.find?_eq_some.mpr ⟨he, hkey⟩⟩
  · rintro ⟨e, he⟩
    exact ⟨e, Table.mem_of_find? he, Table.find?_key he⟩

end Links

section Runs

variable {ι P η : Type} [DecidableEq ι] [DecidableEq η] (calls : ι → Publication P)
  (policy : Option (AccessPolicy P)) (hash : Body → η) (contentBytes : Store → Content → Nat)

/-- The calls, before any of them has begun, over a graph that has no publication. -/
def publishStart (s : Store) (activeUsers : List UUID) : PublishWorld ι η :=
  ⟨{ toStore := s, activeUsers := activeUsers }, fun _ => .start⟩

/-- The tables that the commits of some calls make of others, one after another. -/
inductive Commits (s₀ : PublishStore η) : List ι → PublishStore η → Prop where
  | none : Commits s₀ [] s₀
  | commit {is : List ι} {i : ι} {now : Nat} {draft : Draft} {revision : Nat} {row : Revision η}
      {s s' : PublishStore η} (hbefore : Commits s₀ is s)
      (hrun : publishOnConn hash now (calls i) draft revision s = .ok (row, s')) :
      Commits s₀ (is ++ [i]) s'

/-- The tables are what the calls that ended published have made of the first ones. -/
def OnlyPublished (s₀ : PublishStore η) (w : PublishWorld ι η) : Prop :=
  ∃ is : List ι, is.Nodup ∧ (∀ i, i ∈ is ↔ ∃ row, w.phase i = .finished (.published row)) ∧
    Commits calls hash s₀ is w.store

variable {calls policy hash contentBytes} {i : ι} {w w' : PublishWorld ι η}
  {s₀ : PublishStore η}

theorem publishStep_onlyPublished (hinv : PublishInv calls hash w)
    (hstep : PublishStep calls policy hash contentBytes i w w')
    (h : OnlyPublished calls hash s₀ w) : OnlyPublished calls hash s₀ w' := by
  obtain ⟨is, hnodup, his, hcommits⟩ := h
  rcases publishStep_cases hinv hstep with ⟨p, rfl, hphase, hp, _, _, _⟩ |
    ⟨now, draft, revision, row, s, hphase, hrun, rfl⟩
  · refine ⟨is, hnodup, ?_, hcommits⟩
    refine World.forall_write (Q := fun j q => j ∈ is ↔ ∃ row, q = Phase.finished (.published row))
      ?_ fun j _ => his j
    rw [his]
    constructor
    · rintro ⟨row, hrow⟩
      exact absurd hrow (hphase _)
    · rintro ⟨row, hrow⟩
      exact absurd hrow (hp row)
  · have hnew : i ∉ is := by
      rw [his]
      rintro ⟨found, hfound⟩
      rw [hphase] at hfound
      cases hfound
    refine ⟨is ++ [i], ?_, ?_, hcommits.commit hrun⟩
    · rw [List.nodup_append]
      refine ⟨hnodup, List.nodup_singleton i, ?_⟩
      rintro j hj k hk rfl
      rw [List.mem_singleton.mp hk] at hj
      exact hnew hj
    · refine World.forall_write
        (Q := fun j q => j ∈ is ++ [i] ↔ ∃ row, q = Phase.finished (.published row)) ?_ ?_
      · simp
      · intro j hj
        rw [List.mem_append, List.mem_singleton, or_iff_left hj]
        exact his j

omit [DecidableEq ι] [DecidableEq η] in
theorem publishStart_inv {s : Store} {activeUsers : List UUID} (hs : EdgeGraphInv s) :
    PublishInv calls hash (publishStart s activeUsers) := by
  have hnone : ∀ reportId, Publish.revisionNumbers (η := η) ⟨s, activeUsers, ∅, ∅⟩ reportId =
      List.range' 1 0 := fun _ => rfl
  refine ⟨?_, ?_, hs, ?_, fun reportId => ⟨0, hnone reportId⟩, fun _ => Nat.zero_le _,
    List.nodup_nil, List.nodup_nil, fun r hr => absurd hr List.not_mem_nil⟩
  · intro i j a hi
    cases hi
  · intro i j a hi
    cases hi
  · intro i
    refine ⟨?_, ?_, ?_, ?_, ?_⟩
    · intro hprobed
      cases hprobed
    · intro report opens hreport
      cases hreport
    · intro draft hadmitted
      cases hadmitted
    · intro draft revision hnumbered
      cases hnumbered
    · intro e he
      cases he

theorem publishRun_inv {s : Store} {activeUsers : List UUID} (hs : EdgeGraphInv s)
    (hrun : PublishRun calls policy hash contentBytes (publishStart s activeUsers) w) :
    PublishInv calls hash w ∧ OnlyPublished calls hash ⟨s, activeUsers, ∅, ∅⟩ w := by
  refine Run.keeps (I := fun w => PublishInv calls hash w ∧ OnlyPublished calls hash _ w) ?_ hrun ?_
  · intro i w w' hstep h
    exact ⟨publishStep_inv hstep h.1, publishStep_onlyPublished h.1 hstep h.2⟩
  · refine ⟨publishStart_inv hs, [], List.nodup_nil, ?_, .none⟩
    intro i
    simp [publishStart]

section Repeats

variable {j : ι} {r : Revision η} (hinv : PublishInv calls hash w)
  (hmade : w.phase j = .finished (.published r)) (huser : (calls i).userId = (calls j).userId)
  (hkey : (calls i).key = (calls j).key)

include hinv hmade huser hkey

omit [DecidableEq ι] in
/-- The probe of a repeat finds the revision. -/
theorem afterProbe_repeat (hhash : Function.Injective hash) :
    afterProbe hash (calls i) (keyed? w.store (calls i).userId (calls i).key) =
      .finished (if (calls i).body = (calls j).body then .replayed r else .conflict) := by
  have hrow : MadeBy hash (calls j) w.store r := (hinv.phases j).ending _ hmade
  cases hkeyed : keyed? w.store (calls i).userId (calls i).key with
  | none =>
    have hunkeyed := keyed?_eq_none hkeyed r hrow.stored
    exact absurd ⟨hrow.author.trans huser.symm, hrow.key.trans hkey.symm⟩ hunkeyed
  | some found =>
    obtain ⟨hmem, hauthor, hfound⟩ := keyed?_eq_some hkeyed
    have hsame : found = r := by
      apply List.inj_on_of_nodup_map hinv.keyed hmem hrow.stored
      rw [hauthor, hfound, huser, hkey, hrow.author, hrow.key]
    subst hsame
    by_cases hbody : (calls i).body = (calls j).body
    · rw [afterProbe, if_pos (hrow.request.trans (congrArg hash hbody.symm)), if_pos hbody]
    · have hother : found.requestHash ≠ hash (calls i).body := by
        rw [hrow.request]
        exact fun h => hbody (hhash h.symm)
      rw [afterProbe, if_neg hother, if_neg hbody]

/-- A repeat writes nothing: it waits, ends with what its probe finds, or breaks off. -/
theorem publishStep_repeat (hhash : Function.Injective hash)
    (hstep : PublishStep calls policy hash contentBytes i w w') :
    w'.store = w.store ∧ (w'.phase i = .held ∨ w'.phase i = .finished .aborted ∨
      w'.phase i = .finished (.refused "Publisher account is not active.") ∨
      w'.phase i =
        .finished (if (calls i).body = (calls j).body then .replayed r else .conflict)) := by
  have hrow : MadeBy hash (calls j) w.store r := (hinv.phases j).ending _ hmade
  have hprobed : (w.phase i).probed? ≠ true := by
    intro hprobed
    exact (hinv.phases i).unkeyed hprobed r hrow.stored
      ⟨hrow.author.trans huser.symm, hrow.key.trans hkey.symm⟩
  cases hstep with
  | lock => exact ⟨rfl, Or.inl World.move_phase_self⟩
  | inactive => exact ⟨rfl, Or.inr (Or.inr (Or.inl World.move_phase_self))⟩
  | probe hphase =>
    rw [afterProbe_repeat hinv hmade huser hkey hhash]
    exact ⟨rfl, Or.inr (Or.inr (Or.inr World.move_phase_self))⟩
  | source hphase => exact absurd (hphase ▸ rfl) hprobed
  | openReport reportId hphase => exact absurd (hphase ▸ rfl) hprobed
  | revise previous report hphase => exact absurd (hphase ▸ rfl) hprobed
  | stray previous hphase => exact absurd (hphase ▸ rfl) hprobed
  | freeze report opens hphase => exact absurd (hphase ▸ rfl) hprobed
  | measure draft hphase => exact absurd (hphase ▸ rfl) hprobed
  | number draft hphase => exact absurd (hphase ▸ rfl) hprobed
  | commit now draft revision row s hphase => exact absurd (hphase ▸ rfl) hprobed
  | fail now draft revision e hphase => exact absurd (hphase ▸ rfl) hprobed
  | abort => exact ⟨rfl, Or.inr (Or.inl World.move_phase_self)⟩

end Repeats

/-- A published revision in the graph. -/
structure Revises (call : Publication P) (s : PublishStore η) (r : Revision η) : Prop where
  stored : r ∈ s.revisions.rows
  author : r.authorId = call.userId
  key : r.publishKey = call.key
  artifact : s.HasRow r.artifactId .artifact
  produced : ∃ report, s.reports.find? r.reportId = some report ∧ ∃ e ∈ s.edges.rows,
    e.toEdgeKey = ⟨r.artifactId, report.issueId, .producedBy⟩ ∧ ∀ e' ∈ s.edges.rows,
      e'.kind = .producedBy →
        e'.toEdgeKey.SamePair ⟨r.artifactId, report.issueId, .producedBy⟩ → e' = e
  supersedes : ∀ p, (∃ e ∈ s.edges.rows, e.toEdgeKey = ⟨r.artifactId, p, .supersedes⟩) ↔
    call.body.previousArtifactId = some p

variable (calls policy hash contentBytes s₀) in
/-- The publications are idempotent, numbered, linked and within the quota. -/
structure Publications (w : PublishWorld ι η) : Prop where
  made : ∀ r ∈ w.store.revisions.rows, ∃ i, w.phase i = .finished (.published r)
  published : ∀ i r, w.phase i = .finished (.published r) → Revises (calls i) w.store r
  once : ∀ r ∈ w.store.revisions.rows, ∀ r' ∈ w.store.revisions.rows,
    r.authorId = r'.authorId → r.publishKey = r'.publishKey → r = r'
  replayed : ∀ i r, w.phase i = .finished (.replayed r) → ∃ j,
    w.phase j = .finished (.published r) ∧ (calls i).userId = (calls j).userId ∧
      (calls i).key = (calls j).key ∧ (calls i).body = (calls j).body
  conflict : ∀ i, w.phase i = .finished .conflict → ∃ j r,
    w.phase j = .finished (.published r) ∧ (calls i).userId = (calls j).userId ∧
      (calls i).key = (calls j).key ∧ (calls i).body ≠ (calls j).body
  repeats : ∀ i j r w', w.phase j = .finished (.published r) →
    (calls i).userId = (calls j).userId → (calls i).key = (calls j).key →
    PublishStep calls policy hash contentBytes i w w' →
    w'.store = w.store ∧ (w'.phase i = .held ∨ w'.phase i = .finished .aborted ∨
      w'.phase i = .finished (.refused "Publisher account is not active.") ∨
      w'.phase i =
        .finished (if (calls i).body = (calls j).body then .replayed r else .conflict))
  answers : ∀ i j r, w.phase j = .finished (.published r) → w.phase i = .held →
    (calls i).userId = (calls j).userId → (calls i).key = (calls j).key →
    PublishStep calls policy hash contentBytes i w (w.move i
      (.finished (if (calls i).body = (calls j).body then .replayed r else .conflict)))
  numbered : ∀ reportId, ∃ n, revisionNumbers w.store reportId = List.range' 1 n
  artifacts : (w.store.revisions.rows.map Revision.artifactId).Nodup
  within : ∀ userId, usedBytes w.store userId ≤ 500000000
  onlyPublished : OnlyPublished calls hash s₀ w

omit [DecidableEq η] in
theorem MadeBy.revises {call : Publication P} {s : PublishStore η} {r : Revision η}
    (h : MadeBy hash call s r) (hinv : EdgeGraphInv s.toStore) : Revises call s r := by
  obtain ⟨report, hfind, hissue⟩ := h.report
  have hunique := h.linked.produced_unique hinv
  rw [← hissue] at hunique
  exact ⟨h.stored, h.author, h.key, h.artifact, ⟨report, hfind, hunique⟩,
    h.linked.supersedes_iff⟩

/-- However the publications interleave, a key has one revision, which its repeats return; the
revisions of a report are numbered from 1, each with an artifact that is linked; no author exceeds
the quota; and the calls that end otherwise have written nothing. -/
theorem publications_exact {s : Store} {activeUsers : List UUID} (hs : EdgeGraphInv s)
    (hhash : Function.Injective hash)
    (hrun : PublishRun calls policy hash contentBytes (publishStart s activeUsers) w) :
    Publications calls policy hash contentBytes ⟨s, activeUsers, ∅, ∅⟩ w := by
  obtain ⟨hinv, honly⟩ := publishRun_inv hs hrun
  have hmaker : ∀ {i r}, r ∈ w.store.revisions.rows → r.authorId = (calls i).userId →
      r.publishKey = (calls i).key → ∃ j, w.phase j = .finished (.published r) ∧
        (calls i).userId = (calls j).userId ∧ (calls i).key = (calls j).key ∧
          r.requestHash = hash (calls j).body := by
    intro i r hr hauthor hkey
    obtain ⟨j, hj⟩ := hinv.made r hr
    have hrow : MadeBy hash (calls j) w.store r := (hinv.phases j).ending _ hj
    exact ⟨j, hj, hauthor.symm.trans hrow.author, hkey.symm.trans hrow.key, hrow.request⟩
  refine ⟨hinv.made, ?_, ?_, ?_, ?_, ?_, ?_, hinv.numbered, hinv.artifacts, hinv.within, honly⟩
  · intro i r hi
    have hrow : MadeBy hash (calls i) w.store r := (hinv.phases i).ending _ hi
    exact hrow.revises hinv.graph
  · intro r hr r' hr' hauthor hkey
    exact List.inj_on_of_nodup_map hinv.keyed hr hr' (Prod.ext hauthor hkey)
  · intro i r hi
    obtain ⟨hr, hauthor, hkey, hrequest⟩ := (hinv.phases i).ending _ hi
    obtain ⟨j, hj, huser, hsame, hmade⟩ := hmaker hr hauthor hkey
    exact ⟨j, hj, huser, hsame, hhash (hrequest.symm.trans hmade)⟩
  · intro i hi
    obtain ⟨r, hr, hauthor, hkey, hrequest⟩ := (hinv.phases i).ending _ hi
    obtain ⟨j, hj, huser, hsame, hmade⟩ := hmaker hr hauthor hkey
    exact ⟨j, r, hj, huser, hsame, fun hbody => hrequest (hmade.trans (congrArg hash hbody.symm))⟩
  · intro i j r w' hj huser hkey hstep
    exact publishStep_repeat hinv hj huser hkey hhash hstep
  · intro i j r hj hi huser hkey
    rw [← afterProbe_repeat hinv hj huser hkey hhash]
    exact .probe hi

end Runs

section Repeat

def halved : Outcome :=
  { result := "0.5".toList, denominator := 4, split := "test".toList }

/-- A publication with a finding that cites its source, asked for twice. -/
def twice (_ : Bool) : Publication Unit where
  userId := 1
  author := ['a']
  body := { issueId := 5, title := ['t'], summary := ['s']
            sections := [{ title := ['m'], summary := ['i'], details := ['d']
                           findings := [⟨['c'], halved, ['u'], [⟨5, none⟩]⟩] }] }
  key := 9

def oneIssue : Store where
  inquiries := ⟨[{ id := 5, kind := .issue, created := 0
                   fields := fun
                     | .title => .text ['q']
                     | .status => .text "active".toList
                     | _ => .null }], by decide⟩

def firstContent : Content where
  title := ['t']
  summary := ['s']
  html := none
  sections := [⟨['m'], ['i'], ['d'], [⟨['c'], halved, ['u'], [⟨5, .issue, ['q'], none⟩]⟩]⟩]
  citations := []

def firstDraft : Draft :=
  ⟨⟨20, 5, 1⟩, true, firstContent, 3⟩

abbrev RepeatStep : Bool → PublishWorld Bool Body → PublishWorld Bool Body → Prop :=
  PublishStep twice none id fun _ _ => 3

/-- The tables with the first call in a phase. -/
def firstAt (p : Phase Body) : PublishWorld Bool Body :=
  (publishStart oneIssue [1]).move false p

theorem firstAt_free {α : Type} {held : Bool → Phase Body → Option α}
    (hstart : held true .start = none) (p q : Phase Body) : Free held (firstAt p) false q := by
  rintro (_ | _) a _ hheld
  · rfl
  · have hother : held true ((firstAt p).phase true) = none := hstart
    rw [hother] at hheld
    cases hheld

/-- The first call up to its commit. -/
theorem first_numbered :
    Run RepeatStep (publishStart oneIssue [1]) (firstAt (.numbered firstDraft 1)) := by
  have hnext : ∀ {p q}, RepeatStep false (firstAt p) ((firstAt p).move false q) →
      Run RepeatStep (publishStart oneIssue [1]) (firstAt p) →
        Run RepeatStep (publishStart oneIssue [1]) (firstAt q) := by
    intro p q hstep hrun
    have hmoved : (firstAt p).move false q = firstAt q := World.write_write
    rw [hmoved] at hstep
    exact hrun.tail ⟨false, hstep⟩
  have hheld : Run RepeatStep (publishStart oneIssue [1]) (firstAt .held) := by
    refine Run.single (.lock rfl (by decide) ?_)
    intro j a _ hheld
    cases hheld
  have hprobed := hnext (q := .probed) (.probe rfl) hheld
  have hsourced := hnext (q := .sourced) (.source rfl) hprobed
  have hreported := hnext (.openReport 20 rfl rfl rfl (firstAt_free rfl _ _)) hsourced
  have hfrozen := hnext (q := .frozen firstDraft) (.freeze _ _ rfl) hreported
  have hquota : afterQuota (firstAt (.frozen firstDraft)).store (twice false) firstDraft =
      Phase.measured (η := Body) firstDraft := if_neg (by decide +kernel)
  have hmeasured := hnext (.measure firstDraft rfl) hfrozen
  rw [hquota] at hmeasured
  exact hnext (.number _ rfl) hmeasured

theorem oneIssue_inv : EdgeGraphInv oneIssue :=
  edgeGraphInv_empty.subset fun _ he => absurd he List.not_mem_nil

/-- The second call returns the revision of the first. -/
theorem publications_exact_repeat : ∃ w r, w.phase false = .finished (.published r) ∧
    w.phase true = .finished (.replayed r) ∧
      Publications twice none id (fun _ _ => 3) ⟨oneIssue, [1], ∅, ∅⟩ w := by
  have hcommit : (publishOnConn id 0 (twice false) firstDraft 1 (firstAt .start).store).toOption.any
      (fun r => decide (r.2.activeUsers = [1])) = true := by decide +kernel
  obtain ⟨⟨r, s⟩, hrun, hactive⟩ := (Option.any_eq_true _ _).mp hcommit
  have hrun : publishOnConn id 0 (twice false) firstDraft 1 (firstAt .start).store = .ok (r, s) := by
    cases hresult : publishOnConn id 0 (twice false) firstDraft 1 (firstAt .start).store with
    | error e =>
      rw [hresult] at hrun
      cases hrun
    | ok result =>
      rw [hresult] at hrun
      cases hrun
      rfl
  let published := (firstAt (.numbered firstDraft 1)).write false s (.finished (.published r))
  have hpublished : Run RepeatStep (publishStart oneIssue [1]) published :=
    first_numbered.tail ⟨false, .commit 0 firstDraft 1 r s rfl hrun⟩
  have hmade : published.phase false = .finished (.published r) := World.write_phase_self
  let waiting := published.move true .held
  have hwaiting : Run RepeatStep (publishStart oneIssue [1]) waiting := by
    refine hpublished.tail ⟨true, .lock rfl ?_ ?_⟩
    · have hactive : s.activeUsers = [1] := of_decide_eq_true hactive
      show 1 ∈ s.activeUsers
      rw [hactive]
      exact List.mem_singleton.mpr rfl
    · rintro (_ | _) a _ hheld
      · cases hheld
      · rfl
  have hexact := publications_exact oneIssue_inv Function.injective_id hwaiting
  have hmade : waiting.phase false = .finished (.published r) := hmade
  have hanswer := hexact.answers true false r hmade rfl rfl rfl
  have hreplayed := hwaiting.tail ⟨true, hanswer⟩
  refine ⟨_, r, ?_, ?_, publications_exact oneIssue_inv Function.injective_id hreplayed⟩
  · exact hmade
  · exact World.move_phase_self

end Repeat

end Trackinizer.Publish
