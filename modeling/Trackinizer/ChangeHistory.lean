import Mathlib.Data.List.Chain
import Mathlib.Data.List.Perm.Subperm
import Mathlib.Order.WithBot
import Trackinizer.Subscriber

namespace Trackinizer.History

open Keyed Paging

/-- A policy's `read_filter` for inquiries: `TRUE`, or a predicate of the current row. -/
abbrev ReadFilter (P : Type) := P → Option (Inquiry → Bool)

/-- Who reads the log, under which policy. -/
structure Reader (P : Type) where
  accessPolicy : Option (ReadFilter P) := none
  principal : Option P := none

/-- The tables that the change feeds read. -/
structure Database where
  inquiries : Table Inquiry.id := ∅
  changeLog : Table (fun c : LoggedChange => c.id) := ∅

/-- The optional filters of `list_changes`. -/
structure ChangeQuery where
  since : Option Nat := none
  actor : Option Actor := none
  subjectId : Option UUID := none
  subjectKind : Option String := none
  kinds : List String := []

section Feeds

variable {P : Type} (reader : Reader P) (db : Database)

/-- `inquiry_read_filter`, at a reference to an inquiry that need no longer be there. -/
def inquiryReadFilter (reference : UUID) : Bool :=
  match reader.accessPolicy, reader.principal with
  | some readFilter, some principal =>
      match readFilter principal with
      | none => true
      | some predicate => (db.inquiries.find? reference).any predicate
  | _, _ => true

/-- `change_read_filter`: the subject and both peers. -/
def changeReadFilter (c : LoggedChange) : Bool :=
  inquiryReadFilter reader db c.subjectId &&
    c.old.peerId.all (inquiryReadFilter reader db) &&
    c.new.peerId.all (inquiryReadFilter reader db)

def ChangeQuery.keeps (q : ChangeQuery) (c : LoggedChange) : Bool :=
  q.since.all (fun since => decide (since ≤ c.created)) &&
    q.actor.all (fun actor => decide (c.actor = actor)) &&
    q.subjectId.all (fun id => decide (c.subjectId = id)) &&
    q.subjectKind.all (fun kind => decide (c.subjectKind.label = kind)) &&
    (q.kinds.isEmpty || decide (c.kind.label ∈ q.kinds))

/-- The rows that the clauses of `list_changes` keep, the cursor's apart. -/
def listed (q : ChangeQuery) : List LoggedChange :=
  db.changeLog.rows.filter fun c => changeReadFilter reader db c && q.keeps c

/-- `ORDER BY created DESC, id DESC`. -/
def newestFirst (rows : List LoggedChange) : List LoggedChange :=
  rows.mergeSort fun a b => decide (b.key ≤ a.key)

def limitOutOfRange : StoreError := .value s!"limit must be in [1, {maxListLimit}]"

/-- `list_changes`. -/
def listChanges (q : ChangeQuery) (afterId : Option UUID) (limit : Nat) :
    Except StoreError (List LoggedChange) :=
  if limit < 1 ∨ maxListLimit < limit then .error limitOutOfRange
  else
    match afterId with
    | none => .ok ((newestFirst (listed reader db q)).take limit)
    | some id =>
        match (db.changeLog.find? id).filter (changeReadFilter reader db) with
        | none => .error (.notFound s!"change {id} not found")
        | some cursor =>
            .ok ((newestFirst ((listed reader db q).filter fun c =>
              decide (c.key < toLex (cursor.created, id)))).take limit)

/-- The rows whose subscribers name an agent. -/
def addressed (agent : Actor) : List LoggedChange :=
  db.changeLog.rows.filter fun c => decide (agent ∈ c.subscribersSnapshot)

/-- `what_changed_for_me`. -/
def whatChangedForMe (agent : Actor) (since : Nat) (afterId : Option UUID) (limit : Nat) :
    Except StoreError (List LoggedChange) :=
  if limit < 1 ∨ maxListLimit < limit then .error limitOutOfRange
  else .ok (page LoggedChange.key limit (toLex (since, afterId.getD 0)) (addressed db agent))

/-- One call of a pager: its limit, and the database it meets. -/
structure Round where
  limit : Nat
  db : Database

/-- A client that asks `list_changes` for the rows after the last id it was given, until a
short page. -/
def pageListChanges (q : ChangeQuery) :
    Option UUID → List Round → Except StoreError (List LoggedChange × Bool)
  | _, [] => .ok ([], false)
  | afterId, round :: rest => do
      let got ← listChanges reader round.db q afterId round.limit
      if got.length < round.limit then return (got, true)
      let later ← pageListChanges q (got.getLast?.map fun c => c.id) rest
      return (got ++ later.1, later.2)

/-- A client that asks `what_changed_for_me` for the rows after the last `(created, id)` it
was given, until a short page. -/
def pageWhatChanged (agent : Actor) :
    Nat × Option UUID → List Round → Except StoreError (List LoggedChange × Bool)
  | _, [] => .ok ([], false)
  | (since, afterId), round :: rest => do
      let got ← whatChangedForMe round.db agent since afterId round.limit
      if got.length < round.limit then return (got, true)
      let next :=
        match got.getLast? with
        | none => (since, afterId)
        | some last => (last.created, some last.id)
      let later ← pageWhatChanged agent next rest
      return (got ++ later.1, later.2)

/-- Rows were appended to the log, and what the reader may see of the rows before them did
not change. -/
structure Grows (before after : Database) : Prop where
  appended : ∃ rows, after.changeLog.rows = before.changeLog.rows ++ rows
  seen : ∀ c ∈ before.changeLog.rows,
    changeReadFilter reader after c = changeReadFilter reader before c

end Feeds

section Paging

variable {P : Type} {reader : Reader P} {db : Database} {q : ChangeQuery}

/-- The newest-first order as an ascending one, with room for no cursor before it. -/
def recentKey (c : LoggedChange) : WithBot (ℕ ×ₗ ℕ)ᵒᵈ := ↑(OrderDual.toDual c.key)

theorem recentKey_le {a b : LoggedChange} : recentKey a ≤ recentKey b ↔ b.key ≤ a.key := by
  rw [recentKey, recentKey, WithBot.coe_le_coe, OrderDual.toDual_le_toDual]

theorem recentKey_lt {a b : LoggedChange} : recentKey a < recentKey b ↔ b.key < a.key := by
  rw [recentKey, recentKey, WithBot.coe_lt_coe, OrderDual.toDual_lt_toDual]

theorem bot_lt_recentKey (c : LoggedChange) : ⊥ < recentKey c := WithBot.bot_lt_coe _

/-- Rows of a log, however chosen, have distinct ids. -/
theorem ids_nodup (p : LoggedChange → Bool) :
    ((db.changeLog.rows.filter p).map fun c => c.id).Nodup :=
  db.changeLog.keys_nodup.sublist (List.filter_sublist.map _)

theorem keys_nodup (p : LoggedChange → Bool) :
    ((db.changeLog.rows.filter p).map LoggedChange.key).Nodup := by
  refine ((ids_nodup p).of_map _).map_on ?_
  intro a ha b hb hkey
  exact List.inj_on_of_nodup_map (ids_nodup p) ha hb (LoggedChange.id_of_key hkey)

theorem recentKeys_nodup (p : LoggedChange → Bool) :
    ((db.changeLog.rows.filter p).map recentKey).Nodup := by
  refine ((ids_nodup p).of_map _).map_on ?_
  intro a ha b hb hkey
  have hle := recentKey_le.mp hkey.le
  have hge := recentKey_le.mp hkey.ge
  exact List.inj_on_of_nodup_map (ids_nodup p) ha hb (LoggedChange.id_of_key (le_antisymm hge hle))

theorem newestFirst_eq_ahead (rows : List LoggedChange) :
    newestFirst rows = ahead recentKey ⊥ rows := by
  have hall : (rows.filter fun r => decide (⊥ < recentKey r)) = rows := by
    rw [List.filter_eq_self]
    intro r _
    exact decide_eq_true (bot_lt_recentKey r)
  rw [newestFirst, ahead, hall]
  simp only [recentKey_le]

theorem newestFirst_past (cursor : LoggedChange) (rows : List LoggedChange) :
    newestFirst (rows.filter fun c => decide (c.key < cursor.key)) =
      ahead recentKey (recentKey cursor) rows := by
  rw [newestFirst, ahead]
  simp only [recentKey_le, recentKey_lt]

/-- Where a pager of `list_changes` stands: before every row, or at a row that it still sees. -/
inductive Stands (reader : Reader P) (db : Database) :
    Option UUID → WithBot (ℕ ×ₗ ℕ)ᵒᵈ → Prop where
  | start : Stands reader db none ⊥
  | after (c : LoggedChange) (stored : c ∈ db.changeLog.rows)
      (readable : changeReadFilter reader db c = true) : Stands reader db (some c.id) (recentKey c)

/-- A page of `list_changes` is the page past where its reader stands. -/
theorem listChanges_eq_page {afterId : Option UUID} {place : WithBot (ℕ ×ₗ ℕ)ᵒᵈ}
    (h : Stands reader db afterId place) {limit : Nat} (hpos : 1 ≤ limit)
    (hcap : limit ≤ maxListLimit) :
    listChanges reader db q afterId limit =
      .ok (page recentKey limit place (listed reader db q)) := by
  have hlimit : ¬ (limit < 1 ∨ maxListLimit < limit) := by omega
  unfold listChanges
  rw [if_neg hlimit]
  cases h with
  | start =>
      dsimp only
      rw [newestFirst_eq_ahead, page]
  | after c stored readable =>
      have hfound : db.changeLog.find? c.id = some c := Table.find?_eq_some.mpr ⟨stored, rfl⟩
      have hkey : toLex (c.created, c.id) = c.key := by rw [LoggedChange.key]
      dsimp only
      rw [hfound, Option.filter_some, if_pos readable]
      dsimp only
      rw [hkey, newestFirst_past, page]

theorem Stands.grows {after : Database} (hgrows : Grows reader db after) {afterId : Option UUID}
    {place : WithBot (ℕ ×ₗ ℕ)ᵒᵈ} (h : Stands reader db afterId place) :
    Stands reader after afterId place := by
  cases h with
  | start => exact .start
  | after c stored readable =>
      obtain ⟨rows, hrows⟩ := hgrows.appended
      have hmem : c ∈ after.changeLog.rows := by
        rw [hrows]
        exact List.mem_append_left _ stored
      have hsame := hgrows.seen c stored
      exact .after c hmem (hsame.trans readable)

/-- A page leaves its reader at the page's last row. -/
theorem Stands.next {place : WithBot (ℕ ×ₗ ℕ)ᵒᵈ} {limit : Nat}
    (hfull : 0 < (page recentKey limit place (listed reader db q)).length) :
    Stands reader db ((page recentKey limit place (listed reader db q)).getLast?.map fun c => c.id)
      (nextCursor recentKey place (page recentKey limit place (listed reader db q))) := by
  rw [nextCursor]
  cases hlast : (page recentKey limit place (listed reader db q)).getLast? with
  | none =>
      have hempty := List.getLast?_eq_none_iff.mp hlast
      rw [hempty] at hfull
      cases hfull
  | some last =>
      have hpage : last ∈ page recentKey limit place (listed reader db q) :=
        List.mem_of_getLast? hlast
      have hlisted : last ∈ listed reader db q := (mem_ahead.mp (List.mem_of_mem_take hpage)).1
      rw [listed, List.mem_filter, Bool.and_eq_true] at hlisted
      exact .after last hlisted.1 hlisted.2.1

/-- The pages of a query, as a pager over the rows of each moment sees them. -/
def listedRounds (reader : Reader P) (q : ChangeQuery) (rounds : List Round) :
    List (Nat × List LoggedChange) :=
  rounds.map fun round => (round.limit, listed reader round.db q)

/-- Each limit is one that the feeds admit. -/
def Admitted (rounds : List Round) : Prop :=
  ∀ round ∈ rounds, 1 ≤ round.limit ∧ round.limit ≤ maxListLimit

/-- While the log only grows no page is refused, and the ids resume exactly where the pages end. -/
theorem pageListChanges_eq {rounds : List Round} (hlimits : Admitted rounds)
    (hgrows : (db :: rounds.map Round.db).IsChain (Grows reader)) {afterId : Option UUID}
    {place : WithBot (ℕ ×ₗ ℕ)ᵒᵈ} (h : Stands reader db afterId place) :
    pageListChanges reader q afterId rounds =
      .ok (pages recentKey place (listedRounds reader q rounds)) := by
  induction rounds generalizing db afterId place with
  | nil => rfl
  | cons round rest ih =>
      rw [List.map_cons, List.isChain_cons_cons] at hgrows
      obtain ⟨hfirst, hrest⟩ := hgrows
      obtain ⟨hpos, hcap⟩ := hlimits round List.mem_cons_self
      have hlater : Admitted rest := fun r hr => hlimits r (List.mem_cons_of_mem _ hr)
      have hpage := @listChanges_eq_page P reader round.db q afterId place (h.grows hfirst)
        round.limit hpos hcap
      rw [pageListChanges, hpage, listedRounds, List.map_cons, pages]
      by_cases hlt :
          (page recentKey round.limit place (listed reader round.db q)).length < round.limit
      · simp only [bind, Except.bind, hlt, ↓reduceIte]
        rfl
      · have hnext := @Stands.next P reader round.db q place round.limit (by omega)
        have hall := ih hlater hrest hnext
        simp only [hlt, ↓reduceIte, bind, Except.bind, hall]
        rfl

/-- The pages of an agent's subscriptions, as a pager over the rows of each moment sees them. -/
def addressedRounds (agent : Actor) (rounds : List Round) : List (Nat × List LoggedChange) :=
  rounds.map fun round => (round.limit, addressed round.db agent)

/-- The cursor of `what_changed_for_me`: a missing id is the nil one. -/
def subscriberCursor (cursor : Nat × Option UUID) : ℕ ×ₗ ℕ := toLex (cursor.1, cursor.2.getD 0)

theorem pageWhatChanged_eq (agent : Actor) {rounds : List Round} (hlimits : Admitted rounds)
    (cursor : Nat × Option UUID) :
    pageWhatChanged agent cursor rounds =
      .ok (pages LoggedChange.key (subscriberCursor cursor) (addressedRounds agent rounds)) := by
  induction rounds generalizing cursor with
  | nil => rfl
  | cons round rest ih =>
      obtain ⟨since, afterId⟩ := cursor
      obtain ⟨hpos, hcap⟩ := hlimits round List.mem_cons_self
      have hlater : Admitted rest := fun r hr => hlimits r (List.mem_cons_of_mem _ hr)
      have hlimit : ¬ (round.limit < 1 ∨ maxListLimit < round.limit) := by omega
      have hpage : whatChangedForMe round.db agent since afterId round.limit =
          .ok (page LoggedChange.key round.limit (subscriberCursor (since, afterId))
            (addressed round.db agent)) := by
        unfold whatChangedForMe
        rw [if_neg hlimit, subscriberCursor]
      rw [pageWhatChanged, hpage, addressedRounds, List.map_cons, pages]
      by_cases hlt : (page LoggedChange.key round.limit (subscriberCursor (since, afterId))
          (addressed round.db agent)).length < round.limit
      · simp only [bind, Except.bind, hlt, ↓reduceIte]
        rfl
      · simp only [bind, Except.bind, hlt, ↓reduceIte, ih hlater]
        rw [nextCursor]
        cases (page LoggedChange.key round.limit (subscriberCursor (since, afterId))
          (addressed round.db agent)).getLast? with
        | none => rfl
        | some last => rfl

/-- Paging is exact: no row comes twice and the order is kept, every row is one that matched
when its page was read, a short page means that the rows of the first log came as documented,
and there is a short page before there are more pages than rows. -/
def PagesExactly (db : Database) (rounds : List Round) (matching : Database → List LoggedChange)
    (before : LoggedChange → LoggedChange → Prop) (documented : List LoggedChange)
    (outcome : Except StoreError (List LoggedChange × Bool)) : Prop :=
  ∃ shown short, outcome = .ok (shown, short) ∧
    shown.Pairwise before ∧
    (∀ c ∈ shown, ∃ round ∈ rounds, c ∈ matching round.db) ∧
    (short = true → shown.filter (fun c => decide (c ∈ db.changeLog.rows)) = documented) ∧
    ((∀ d ∈ db :: rounds.map Round.db, d.changeLog.rows.length < rounds.length) → short = true)

theorem Grows.trans {a b c : Database} (hab : Grows reader a b) (hbc : Grows reader b c) :
    Grows reader a c := by
  obtain ⟨first, hfirst⟩ := hab.appended
  obtain ⟨second, hsecond⟩ := hbc.appended
  refine ⟨⟨first ++ second, by rw [hsecond, hfirst, List.append_assoc]⟩, ?_⟩
  intro r hr
  have hmem : r ∈ b.changeLog.rows := by
    rw [hfirst]
    exact List.mem_append_left _ hr
  exact (hbc.seen r hmem).trans (hab.seen r hr)

theorem Grows.subset {a b : Database} (h : Grows reader a b) :
    a.changeLog.rows ⊆ b.changeLog.rows := by
  obtain ⟨rows, hrows⟩ := h.appended
  rw [hrows]
  exact List.subset_append_left _ _

instance : Trans (Grows reader) (Grows reader) (Grows reader) := ⟨Grows.trans⟩

/-- The last log holds every row of the others. -/
theorem exists_fullest {dbs : List Database} (h : (db :: dbs).IsChain (Grows reader)) :
    ∃ last ∈ db :: dbs, ∀ d ∈ db :: dbs, d.changeLog.rows ⊆ last.changeLog.rows := by
  induction dbs generalizing db with
  | nil =>
      refine ⟨db, List.mem_cons_self, ?_⟩
      intro d hd
      rw [List.mem_singleton.mp hd]
      exact List.Subset.refl _
  | cons next rest ih =>
      rw [List.isChain_cons_cons] at h
      obtain ⟨last, hlast, hall⟩ := ih h.2
      refine ⟨last, List.mem_cons_of_mem _ hlast, ?_⟩
      intro d hd
      rcases List.mem_cons.mp hd with rfl | hd
      · exact List.Subset.trans h.1.subset (hall next List.mem_cons_self)
      · exact hall d hd

section Exact

variable {κ : Type} [LinearOrder κ] {key : LoggedChange → κ} {c : κ} {rounds : List Round}
  {matching : Database → List LoggedChange}

/-- Paging is exact over any choice of rows that the growth of the log does not disturb. -/
theorem pagesExactly_of_pages (hgrows : (db :: rounds.map Round.db).IsChain (Grows reader))
    (hlimits : Admitted rounds) (hsub : ∀ d, matching d ⊆ d.changeLog.rows)
    (hkeys : ∀ d, ((matching d).map key).Nodup)
    (hstable : ∀ d, Grows reader db d → ∀ r ∈ db.changeLog.rows,
      (r ∈ matching d ↔ r ∈ matching db)) :
    PagesExactly db rounds matching (fun a b => key a < key b) (ahead key c (matching db))
      (.ok (pages key c (rounds.map fun round => (round.limit, matching round.db)))) := by
  have hpairs : (db :: rounds.map Round.db).Pairwise (Grows reader) :=
    List.isChain_iff_pairwise.mp hgrows
  have hfrom : ∀ round ∈ rounds, Grows reader db round.db := by
    intro round hround
    exact (List.pairwise_cons.mp hpairs).1 _ (List.mem_map_of_mem hround)
  have hnodup : ∀ r ∈ rounds.map fun round => (round.limit, matching round.db),
      (r.2.map key).Nodup := by
    intro r hr
    obtain ⟨round, _, rfl⟩ := List.mem_map.mp hr
    exact hkeys round.db
  have hsorted := @pages_sorted LoggedChange κ _ key c _ hnodup
  have hwithin : ∀ r ∈ (pages key c (rounds.map fun round => (round.limit, matching round.db))).1,
      c < key r ∧ ∃ round ∈ rounds, r ∈ matching round.db := by
    intro r hr
    obtain ⟨hpast, m, hm, hin⟩ := mem_pages hr
    obtain ⟨round, hround, rfl⟩ := List.mem_map.mp hm
    exact ⟨hpast, round, hround, hin⟩
  refine ⟨_, _, rfl, hsorted, fun r hr => (hwithin r hr).2, ?_, ?_⟩
  · intro hshort
    refine eq_of_sorted (hsorted.filter _) (ahead_sorted (hkeys db)) ?_
    intro r
    rw [List.mem_filter, decide_eq_true_eq, mem_ahead]
    constructor
    · rintro ⟨hr, hstored⟩
      obtain ⟨hpast, round, hround, hin⟩ := hwithin r hr
      exact ⟨(hstable round.db (hfrom round hround) r hstored).mp hin, hpast⟩
    · rintro ⟨hmatch, hpast⟩
      have hstored : r ∈ db.changeLog.rows := hsub db hmatch
      refine ⟨mem_pages_of_short hnodup hshort ?_ hpast, hstored⟩
      intro m hm
      obtain ⟨round, hround, rfl⟩ := List.mem_map.mp hm
      exact (hstable round.db (hfrom round hround) r hstored).mpr hmatch
  · intro hmany
    -- pages that are all full would show more rows than the last log holds
    by_contra hfull
    rw [Bool.not_eq_true] at hfull
    have hpos : ∀ m ∈ rounds.map fun round => (round.limit, matching round.db), 0 < m.1 := by
      intro m hm
      obtain ⟨round, hround, rfl⟩ := List.mem_map.mp hm
      have hlimit := (hlimits round hround).1
      omega
    have hcount := length_le_of_full hpos hfull
    rw [List.length_map] at hcount
    obtain ⟨last, hlast, hall⟩ := exists_fullest hgrows
    have hrows : (pages key c (rounds.map fun round => (round.limit, matching round.db))).1 ⊆
        last.changeLog.rows := by
      intro r hr
      obtain ⟨_, round, hround, hin⟩ := hwithin r hr
      have hmem : round.db ∈ db :: rounds.map Round.db :=
        List.mem_cons_of_mem _ (List.mem_map_of_mem hround)
      exact hall round.db hmem (hsub round.db hin)
    have hdistinct := hsorted.imp (fun hab => ne_of_apply_ne key (ne_of_lt hab))
    have hlength := (List.subperm_of_subset hdistinct hrows).length_le
    have hbound := hmany last hlast
    omega

end Exact

theorem listed_stable {d : Database} (h : Grows reader db d) {r : LoggedChange}
    (hr : r ∈ db.changeLog.rows) : r ∈ listed reader d q ↔ r ∈ listed reader db q := by
  rw [listed, listed, List.mem_filter, List.mem_filter, h.seen r hr]
  have hmem := h.subset hr
  tauto

theorem addressed_stable {d : Database} (h : Grows reader db d) {agent : Actor} {r : LoggedChange}
    (hr : r ∈ db.changeLog.rows) : r ∈ addressed d agent ↔ r ∈ addressed db agent := by
  rw [addressed, addressed, List.mem_filter, List.mem_filter]
  have hmem := h.subset hr
  tauto

/-- Both feeds page exactly, under every mix of admitted limits, while the log grows. -/
theorem feeds_pageExactly (q : ChangeQuery) (agent : Actor) (since : Nat) (afterId : Option UUID)
    (rounds : List Round) (hlimits : Admitted rounds)
    (hgrows : (db :: rounds.map Round.db).IsChain (Grows reader)) :
    PagesExactly db rounds (fun d => listed reader d q) (fun a b => b.key < a.key)
        (newestFirst (listed reader db q)) (pageListChanges reader q none rounds) ∧
      PagesExactly db rounds (fun d => addressed d agent) (fun a b => a.key < b.key)
        (ahead LoggedChange.key (toLex (since, afterId.getD 0)) (addressed db agent))
        (pageWhatChanged agent (since, afterId) rounds) := by
  constructor
  · rw [pageListChanges_eq hlimits hgrows .start, newestFirst_eq_ahead, listedRounds]
    simp only [← recentKey_lt]
    refine pagesExactly_of_pages hgrows hlimits ?_ (fun d => recentKeys_nodup _) ?_
    · exact fun d => List.filter_subset_self _
    · exact fun d hd r hr => listed_stable hd hr
  · rw [pageWhatChanged_eq agent hlimits, addressedRounds, subscriberCursor]
    refine pagesExactly_of_pages hgrows hlimits ?_ (fun d => keys_nodup _) ?_
    · exact fun d => List.filter_subset_self _
    · exact fun d hd r hr => addressed_stable hd hr

/-- A new title, of a row that the agent `[]` subscribes to. -/
def logged (id subjectId : UUID) (actor : Actor) : LoggedChange :=
  { id := id, created := 3, apiKeyId := none, actor := actor, subjectId := subjectId
    subjectKind := .issue, kind := .column .title, causedBy := none, reason := ""
    subscribersSnapshot := [[]], old := {}, new := {}, oldCost := {}, newCost := {} }

def titled (id : UUID) (title : Text) : Inquiry where
  id := id
  kind := .issue
  created := 0
  fields
    | .title => .text title
    | .status => .text "active".toList
    | _ => .null

/-- A log of two changes of one moment, a third of an Issue that is out of sight and a fourth by
another actor. -/
def twins : Database where
  inquiries := ⟨[titled 1 ['p'], titled 2 ['q']], by decide⟩
  changeLog := ⟨[logged 7 1 ['a'], logged 5 1 ['a'], logged 4 2 ['a'], logged 8 1 ['b']], by decide⟩

/-- The same log, with a change appended. -/
def twinsAndOne : Database where
  inquiries := twins.inquiries
  changeLog := ⟨[logged 7 1 ['a'], logged 5 1 ['a'], logged 4 2 ['a'], logged 8 1 ['b'],
    logged 6 1 ['a']], by decide⟩

/-- Who may read the Issues titled `p`. -/
def pReader : Reader Unit where
  accessPolicy := some fun _ => some fun r => decide (r.fields .title = .text ['p'])
  principal := some ()

def byA : ChangeQuery where
  since := some 2
  actor := some ['a']

theorem feeds_pageExactly_twins :
    (listed pReader twins byA).map (fun c => c.id) = [7, 5] ∧
    PagesExactly twins [⟨1, twins⟩, ⟨1, twinsAndOne⟩, ⟨2, twinsAndOne⟩]
        (fun d => listed pReader d byA) (fun a b => b.key < a.key)
        (newestFirst (listed pReader twins byA))
        (pageListChanges pReader byA none
          [⟨1, twins⟩, ⟨1, twinsAndOne⟩, ⟨2, twinsAndOne⟩]) ∧
      PagesExactly twins [⟨1, twins⟩, ⟨1, twinsAndOne⟩, ⟨2, twinsAndOne⟩]
        (fun d => addressed d []) (fun a b => a.key < b.key)
        (ahead LoggedChange.key (toLex (3, (none : Option UUID).getD 0)) (addressed twins []))
        (pageWhatChanged [] (3, none) [⟨1, twins⟩, ⟨1, twinsAndOne⟩, ⟨2, twinsAndOne⟩]) := by
  refine ⟨by decide, feeds_pageExactly byA [] 3 none _ ?_ ?_⟩
  · intro round hround
    have hsizes : round.limit = 1 ∨ round.limit = 2 := by
      simp only [List.mem_cons, List.not_mem_nil, or_false] at hround
      rcases hround with rfl | rfl | rfl
      · exact Or.inl rfl
      · exact Or.inl rfl
      · exact Or.inr rfl
    have hcap : maxListLimit = 1000 := rfl
    omega
  · have hsame : ∀ d : Database, Grows pReader d d :=
      fun d => ⟨⟨[], (List.append_nil _).symm⟩, fun _ _ => rfl⟩
    have hgrown : Grows pReader twins twinsAndOne :=
      ⟨⟨[logged 6 1 ['a']], rfl⟩, fun _ _ => rfl⟩
    exact .cons_cons (hsame _) (.cons_cons hgrown (.cons_cons (hsame _) (.singleton _)))

/-- A limit above the cap is refused by both feeds, however many rows match. -/
theorem feeds_refuse_overCap :
    pageListChanges ({} : Reader Unit) {} none [⟨1001, twins⟩, ⟨1001, twins⟩, ⟨1001, twins⟩] =
        .error (.value "limit must be in [1, 1000]") ∧
      ¬ PagesExactly twins [⟨1001, twins⟩, ⟨1001, twins⟩, ⟨1001, twins⟩]
        (fun d => listed ({} : Reader Unit) d {}) (fun a b => b.key < a.key)
        (newestFirst (listed ({} : Reader Unit) twins {}))
        (pageListChanges ({} : Reader Unit) {} none
          [⟨1001, twins⟩, ⟨1001, twins⟩, ⟨1001, twins⟩]) ∧
      ¬ PagesExactly twins [⟨1001, twins⟩, ⟨1001, twins⟩, ⟨1001, twins⟩]
        (fun d => addressed d []) (fun a b => a.key < b.key)
        (ahead LoggedChange.key (toLex (0, (none : Option UUID).getD 0)) (addressed twins []))
        (pageWhatChanged [] (0, none) [⟨1001, twins⟩, ⟨1001, twins⟩, ⟨1001, twins⟩]) := by
  have hmessage : limitOutOfRange = .value "limit must be in [1, 1000]" := by decide
  have hlisted : pageListChanges ({} : Reader Unit) {} none
      [⟨1001, twins⟩, ⟨1001, twins⟩, ⟨1001, twins⟩] = .error limitOutOfRange := rfl
  have haddressed : pageWhatChanged [] (0, none)
      [⟨1001, twins⟩, ⟨1001, twins⟩, ⟨1001, twins⟩] = .error limitOutOfRange := rfl
  refine ⟨hlisted.trans (by rw [hmessage]), ?_, ?_⟩
  · rintro ⟨shown, short, hok, _⟩
    rw [hlisted] at hok
    cases hok
  · rintro ⟨shown, short, hok, _⟩
    rw [haddressed] at hok
    cases hok

end Paging

end Trackinizer.History
