import Mathlib.Data.Finset.Card
import Trackinizer.LiveSerial

namespace Trackinizer.Live

/-- `Batcher`; `timer` is when the open window ends. -/
structure Batcher (α : Type) where
  ids : Finset α := ∅
  timer : Option Nat := none
  held : Bool := false

inductive StreamStatus where
  | connected
  | paused
deriving DecidableEq

/-- A registered query: an entry of `#serials` and, with `shareAs`, of `#shared`, for as long as it
is not disposed. Its reads see the first `readFrom` changes of the log. -/
structure Entry (α ε : Type) where
  key : Nat
  query : LiveQuery α ε
  readAt : Nat
  readFrom : Nat
  shareAs : Option Text
  users : Nat := 1

/-- `LiveHub`. -/
structure Hub (α ε : Type) where
  batcher : Batcher α := {}
  entries : List (Entry α ε) := []
  hidden : Bool := false
  hiddenAt : Nat := 0
  gapWaiting : Bool := false
  openSince : Option Nat := none
  reopening : Bool := false
  status : StreamStatus := .connected
  pauseTimer : Option Nat := none

/-- The batcher's `windowMs`. -/
def windowMs : Nat := 1000

/-- `RELOAD_OVER`. -/
def reloadOver : Nat := 100

/-- `PAUSED_AFTER_MS`. -/
def pausedAfterMs : Nat := 10000

/-- `HIDDEN_GAP_MS`. -/
def hiddenGapMs : Nat := 30000

namespace Batcher

variable {α : Type} (b : Batcher α)

def add [DecidableEq α] (now : Nat) (id : α) : Batcher α :=
  { b with
    ids := insert id b.ids
    timer := if b.timer.isNone && !b.held then some (now + windowMs) else b.timer }

def hold : Batcher α :=
  { b with held := true, timer := none }

/-- What is left after `take`. -/
def take : Batcher α :=
  { b with ids := ∅, timer := none }

def release : Batcher α :=
  { b.take with held := false }

end Batcher

namespace Hub

section Methods

variable {α ε : Type} [DecidableEq α] (hub : Hub α ε) (now seen : Nat)

def moment : Moment :=
  ⟨now, !hub.hidden, seen⟩

/-- A method called on every registered query that it is for. -/
def serve (which : Entry α ε → Bool) (method : Entry α ε → LiveQuery α ε) : Hub α ε :=
  { hub with entries := hub.entries.map fun e => if which e then { e with query := method e } else e }

def registered (e : Entry α ε) : Bool :=
  !e.query.disposed

def deliver (ids : Finset α) (gap : Bool) (gapFor : Entry α ε → Bool) : Hub α ε :=
  if decide (ids = ∅) && !gap then hub
  else hub.serve registered fun e => e.query.push (hub.moment now seen) ⟨ids, gap && gapFor e⟩

def recover (which : Entry α ε → Bool) : Hub α ε :=
  if hub.entries.any fun e => registered e && which e then
    if hub.hidden then { hub with gapWaiting := true }
    else { hub with batcher := hub.batcher.take }.deliver now seen hub.batcher.ids true which
  else hub

def change (id : α) : Hub α ε :=
  if hub.hidden && decide (reloadOver < (hub.batcher.add now id).ids.card) then
    { hub with batcher := (hub.batcher.add now id).take, gapWaiting := true }
  else { hub with batcher := hub.batcher.add now id }

/-- `open`, which the hub may hear of late. -/
def openAt (at_ : Nat) : Hub α ε :=
  match hub.openSince with
  | some _ => { hub with pauseTimer := none, status := .connected }
  | none =>
      { { hub with pauseTimer := none, status := .connected, openSince := some at_ }.recover now seen
          (fun e => hub.reopening || decide (e.readAt ≤ at_)) with reopening := true }

def drop : Hub α ε :=
  { hub with
    openSince := none
    pauseTimer := if hub.pauseTimer.isNone && decide (hub.status = .connected) then
      some (now + pausedAfterMs) else hub.pauseTimer }

/-- The pause timer. -/
def pauseFires : Hub α ε :=
  { hub with pauseTimer := none, status := .paused }

def hide : Hub α ε :=
  if hub.hidden then hub
  else { hub with hidden := true, hiddenAt := now, batcher := hub.batcher.hold }

/-- `show`. -/
def showTab : Hub α ε :=
  if hub.hidden then
    let back := { hub with hidden := false, gapWaiting := false, batcher := hub.batcher.release }
    (back.deliver now seen hub.batcher.ids
      (hub.gapWaiting || decide (hiddenGapMs < now - hub.hiddenAt)) fun _ => true).serve registered
        fun e => e.query.resume (back.moment now seen)
  else hub

def online : Hub α ε :=
  hub.recover now seen fun _ => true

def stop : Hub α ε :=
  { hub with pauseTimer := none, batcher := hub.batcher.take, openSince := none }

/-- The end of the batcher's window. -/
def windowFires : Hub α ε :=
  { hub with batcher := hub.batcher.take }.deliver now seen hub.batcher.ids false fun _ => true

/-- The registered query that shares the name. -/
def sharing (shareAs : Text) (e : Entry α ε) : Bool :=
  registered e && decide (e.shareAs = some shareAs)

/-- The entry of a query of its own; `read` is when the reads it holds started, and how many changes
were written by then. -/
def entry (shareAs : Option Text) (read : Option (Nat × Nat)) : Entry α ε where
  key := hub.entries.length
  query := {}
  readAt := (read.map Prod.fst).getD now
  readFrom := (read.map Prod.snd).getD seen
  shareAs := shareAs

def enter (shareAs : Option Text) (read : Option (Nat × Nat)) : Hub α ε :=
  let entered := { hub with entries := hub.entries ++ [hub.entry now seen shareAs read] }
  match hub.openSince, read with
  | some since, some (readAt, _) =>
      if readAt ≤ since then entered.recover now seen fun e => decide (e.key = hub.entries.length)
      else entered
  | _, _ => entered

/-- One more user of a shared query. -/
def share (key : Nat) : Hub α ε :=
  { hub with entries := hub.entries.map fun e =>
      if e.key = key then { e with users := e.users + 1 } else e }

/-- `register`, with the key of the query that the caller got. -/
def register (shareAs : Option Text) (read : Option (Nat × Nat)) : Hub α ε × Nat :=
  match shareAs.bind fun name => hub.entries.find? (sharing name) with
  | some shared => (hub.share shared.key, shared.key)
  | none => (hub.enter now seen shareAs read, hub.entries.length)

/-- Whether a registration is with the query: by its name in `#shared`, else by its `Serial`. -/
def isWith (key : Nat) (shareAs : Option Text) (e : Entry α ε) : Bool :=
  match shareAs with
  | some name => sharing name e
  | none => decide (e.key = key)

/-- The `dispose` of a registration: `#leave` for a name, else `#remove`. -/
def leave (key : Nat) (shareAs : Option Text) : Hub α ε :=
  { hub with entries := hub.entries.map fun e =>
      if isWith key shareAs e then
        { e with
          users := e.users - 1
          query := if 1 < e.users then e.query else e.query.dispose }
      else e }

end Methods

end Hub

section Feeds

variable {α ε : Type} {hub hub' back : Hub α ε} {now seen : Nat} {m : Moment} {e e' e'' : Entry α ε}
  {ids : Finset α} {gap : Bool} {which gapFor : Entry α ε → Bool} {method : Entry α ε → LiveQuery α ε}
  {brings brings' : Entry α ε → α → Prop}

/-- One registration before and after a method. -/
structure Entry.Served (m : Moment) (e e' : Entry α ε) : Prop where
  key : e'.key = e.key
  readAt : e'.readAt = e.readAt
  readFrom : e'.readFrom = e.readFrom
  query : LiveQuery.Served m e.query e'.query

theorem Entry.Served.refl : e.Served m e :=
  ⟨rfl, rfl, rfl, LiveQuery.Served.refl⟩

theorem Entry.Served.trans (h : e.Served m e') (h' : e'.Served m e'') : e.Served m e'' :=
  ⟨h'.key.trans h.key, h'.readAt.trans h.readAt, h'.readFrom.trans h.readFrom, h.query.trans h'.query⟩

namespace Hub

/-- The hub has yet to hand the change on. -/
def Holds (hub : Hub α ε) (id : α) : Prop :=
  id ∈ hub.batcher.ids ∨ hub.gapWaiting = true

/-- A method serves every query. A change that it brings, that a query has or that the hub holds is
one that the query has or the hub holds. -/
def Feeds (m : Moment) (brings : Entry α ε → α → Prop) (hub hub' : Hub α ε) : Prop :=
  ∀ e' ∈ hub'.entries, ∃ e ∈ hub.entries, e.Served m e' ∧
    (e'.query.disposed = false → ∀ {id place}, place < m.seen →
      brings e id ∨ e.query.Has id place ∨ hub.Holds id → e'.query.Has id place ∨ hub'.Holds id)

theorem feeds_of_entries (hentries : hub'.entries = hub.entries)
    (hholds : ∀ e id, e.query.disposed = false → e ∈ hub.entries →
      brings e id ∨ hub.Holds id → hub'.Holds id) :
    Feeds m brings hub hub' := by
  intro e he
  rw [hentries] at he
  refine ⟨e, he, Entry.Served.refl, fun hlive id place _ h => ?_⟩
  rcases h with hnew | hhas | hheld
  · exact Or.inr (hholds e id hlive he (Or.inl hnew))
  · exact Or.inl hhas
  · exact Or.inr (hholds e id hlive he (Or.inr hheld))

/-- The same of a hub whose queries are those of another. -/
theorem Feeds.of_back (h : Feeds m brings back hub') (hentries : back.entries = hub.entries)
    (himp : ∀ e id, brings' e id ∨ hub.Holds id → brings e id ∨ back.Holds id) :
    Feeds m brings' hub hub' := by
  intro e' he'
  obtain ⟨e, he, hserved, hfed⟩ := h e' he'
  rw [hentries] at he
  refine ⟨e, he, hserved, fun hlive id place hplace hhas => hfed hlive hplace ?_⟩
  rcases hhas with hnew | hhas | hheld
  · exact (himp e id (Or.inl hnew)).imp_right Or.inr
  · exact Or.inr (Or.inl hhas)
  · exact (himp e id (Or.inr hheld)).imp_right Or.inr

theorem mem_serve (h : e' ∈ (hub.serve which method).entries) : ∃ e ∈ hub.entries,
    which e = false ∧ e' = e ∨ which e = true ∧ e' = { e with query := method e } := by
  obtain ⟨e, he, rfl⟩ := List.mem_map.mp h
  refine ⟨e, he, ?_⟩
  split
  next hwhich => exact Or.inr ⟨hwhich, rfl⟩
  next hwhich => exact Or.inl ⟨Bool.not_eq_true _ ▸ hwhich, rfl⟩

/-- A method is followed by another on some of the queries. -/
theorem Feeds.serve (h : Feeds m brings hub hub')
    (hmethod : ∀ e ∈ hub'.entries, which e = true → LiveQuery.Served m e.query (method e)) :
    Feeds m brings hub (hub'.serve which method) := by
  intro e'' he''
  obtain ⟨e', he', ⟨_, rfl⟩ | ⟨hwhich, rfl⟩⟩ := mem_serve he''
  · exact h _ he'
  · obtain ⟨e, he, hserved, hfed⟩ := h e' he'
    have hquery := hmethod e' he' hwhich
    refine ⟨e, he, hserved.trans ⟨rfl, rfl, rfl, hquery⟩, fun hlive id place hplace hhas => ?_⟩
    rcases hfed (hquery.mounted hlive) hplace hhas with hhas' | hheld
    · exact Or.inl (hquery.has hlive hplace hhas')
    · exact Or.inr hheld

theorem serve_feeds
    (hmethod : ∀ e ∈ hub.entries, which e = true → LiveQuery.Served m e.query (method e)) :
    Feeds m (fun _ _ => False) hub (hub.serve which method) :=
  (feeds_of_entries rfl fun _ _ _ _ h => h.resolve_left id).serve hmethod

theorem share_feeds {key : Nat} : Feeds m (fun _ _ => False) hub (hub.share key) := by
  intro e' he'
  obtain ⟨e, he, rfl⟩ := List.mem_map.mp he'
  refine ⟨e, he, ?_⟩
  split
  next =>
    exact ⟨⟨rfl, rfl, rfl, LiveQuery.Served.refl⟩, fun _ _ _ _ h => h.resolve_left id⟩
  next => exact ⟨Entry.Served.refl, fun _ _ _ _ h => h.resolve_left id⟩

theorem leave_feeds {key : Nat} {shareAs : Option Text} : Feeds m (fun _ _ => False) hub
    (hub.leave key shareAs) := by
  intro e' he'
  obtain ⟨e, he, rfl⟩ := List.mem_map.mp he'
  have hquery : LiveQuery.Served m e.query (if 1 < e.users then e.query else e.query.dispose) := by
    split
    next => exact LiveQuery.Served.refl
    next => exact LiveQuery.dispose_served
  refine ⟨e, he, ?_⟩
  split
  next =>
    refine ⟨⟨rfl, rfl, rfl, hquery⟩, fun hlive id place hplace h => ?_⟩
    rcases h with hnothing | hhas | hheld
    · exact hnothing.elim
    · exact Or.inl (hquery.has hlive hplace hhas)
    · exact Or.inr hheld
  next => exact ⟨Entry.Served.refl, fun _ _ _ _ h => h.resolve_left id⟩

variable [DecidableEq α]

theorem deliver_feeds : Feeds (hub.moment now seen)
    (fun e id => id ∈ ids ∨ gap = true ∧ gapFor e = true) hub
    (hub.deliver now seen ids gap gapFor) := by
  unfold deliver
  split
  next hnothing =>
    simp only [Bool.and_eq_true, Bool.not_eq_true', decide_eq_true_eq] at hnothing
    obtain ⟨hids, hgap⟩ := hnothing
    refine feeds_of_entries rfl fun e id _ _ h => ?_
    rw [hids, hgap] at h
    simpa using h
  next =>
    intro e' he'
    obtain ⟨e, he, ⟨hgone, rfl⟩ | ⟨_, rfl⟩⟩ := mem_serve he'
    · refine ⟨_, he, Entry.Served.refl, fun hlive => ?_⟩
      rw [registered, hlive] at hgone
      cases hgone
    · refine ⟨e, he, ⟨rfl, rfl, rfl, LiveQuery.push_served⟩, fun _ id place hplace h => ?_⟩
      rcases h with hnew | hhas | hheld
      · refine Or.inl (LiveQuery.push_has hplace (Or.inl ?_))
        exact hnew.imp_right fun ⟨hgap, hfor⟩ => by simp [hgap, hfor]
      · exact Or.inl (LiveQuery.push_has hplace (Or.inr hhas))
      · exact Or.inr hheld

theorem recover_feeds : Feeds (hub.moment now seen) (fun e _ => which e = true) hub
    (hub.recover now seen which) := by
  unfold recover
  split
  next =>
    split
    next => exact feeds_of_entries rfl fun _ _ _ _ _ => Or.inr rfl
    next =>
      refine Feeds.of_back (@deliver_feeds α ε { hub with batcher := hub.batcher.take } now seen
        hub.batcher.ids true which _) rfl fun e id h => ?_
      rcases h with hwhich | hids | hgap
      · exact Or.inl (Or.inr ⟨rfl, hwhich⟩)
      · exact Or.inl (Or.inl hids)
      · exact Or.inr (Or.inr hgap)
  next hnone =>
    refine feeds_of_entries rfl fun e id hlive he h => h.resolve_left fun hwhich => hnone ?_
    rw [List.any_eq_true]
    exact ⟨e, he, by simp [registered, hlive, hwhich]⟩

theorem change_feeds {id : α} : Feeds m (fun _ other => other = id) hub (hub.change now id) := by
  unfold change
  split
  next => exact feeds_of_entries rfl fun _ _ _ _ _ => Or.inr rfl
  next =>
    refine feeds_of_entries rfl fun _ other _ _ h => ?_
    rcases h with rfl | hids | hgap
    · exact Or.inl (Finset.mem_insert_self ..)
    · exact Or.inl (Finset.mem_insert_of_mem hids)
    · exact Or.inr hgap

theorem openAt_feeds {since : Nat} (hclosed : hub.openSince = none) : Feeds (hub.moment now seen)
    (fun e _ => hub.reopening = true ∨ e.readAt ≤ since) hub (hub.openAt now seen since) := by
  unfold openAt
  rw [hclosed]
  refine Feeds.of_back (@recover_feeds α ε { hub with
    pauseTimer := none, status := .connected, openSince := some since } now seen
      (fun e => hub.reopening || decide (e.readAt ≤ since)) _) rfl fun e id h => ?_
  exact h.imp_left fun hfor => by simpa using hfor

theorem windowFires_feeds : Feeds (hub.moment now seen) (fun _ _ => False) hub
    (hub.windowFires now seen) := by
  refine Feeds.of_back (@deliver_feeds α ε { hub with batcher := hub.batcher.take } now seen
    hub.batcher.ids false (fun _ => true) _) rfl fun e id h => ?_
  rcases h with hnothing | hids | hgap
  · exact hnothing.elim
  · exact Or.inl (Or.inl hids)
  · exact Or.inr (Or.inr hgap)

theorem showTab_feeds : Feeds ⟨now, true, seen⟩ (fun _ _ => False) hub
    (hub.showTab now seen) := by
  unfold showTab
  split
  next =>
    refine Feeds.serve (Feeds.of_back (@deliver_feeds α ε { hub with
      hidden := false, gapWaiting := false, batcher := hub.batcher.release } now seen
        hub.batcher.ids _ (fun _ => true) _) rfl fun e id h => ?_)
      fun _ _ _ => LiveQuery.resume_served
    rcases h with hnothing | hids | hgap
    · exact hnothing.elim
    · exact Or.inl (Or.inl hids)
    · exact Or.inl (Or.inr ⟨by simp [hgap], rfl⟩)
  next => exact feeds_of_entries rfl fun _ _ _ _ h => h.resolve_left id

/-- A query that enters with a read from before the stream opened catches up at once. -/
theorem enter_feeds {shareAs : Option Text} {read : Option (Nat × Nat)} :
    Feeds (hub.moment now seen)
      (fun e _ => e.key = hub.entries.length ∧ ∃ since ∈ hub.openSince, ∃ r ∈ read, r.1 ≤ since)
      { hub with entries := hub.entries ++ [hub.entry now seen shareAs read] }
      (hub.enter now seen shareAs read) := by
  unfold enter
  dsimp only
  split
  next since readAt place hsince =>
    split
    next hbefore =>
      refine Feeds.of_back (@recover_feeds α ε { hub with
        entries := hub.entries ++ [hub.entry now seen shareAs (some (readAt, place))] } now seen
          (fun e => decide (e.key = hub.entries.length)) _) rfl fun e id h => ?_
      exact h.imp_left fun hnew => decide_eq_true hnew.1
    next hafter =>
      refine feeds_of_entries rfl fun e id _ _ h => h.resolve_left ?_
      rintro ⟨_, since', hsince', r, hr, hbefore⟩
      rw [hsince] at hsince'
      cases hsince'
      cases hr
      exact hafter hbefore
  next hneither =>
    refine feeds_of_entries rfl fun e id _ _ h => h.resolve_left ?_
    rintro ⟨_, since, hsince, ⟨readAt, place⟩, hr, _⟩
    exact hneither since readAt place hsince hr

end Hub

end Feeds

section Sound

variable {α ε : Type} {hub hub' : Hub α ε} {now later seen : Nat} {m : Moment} {e : Entry α ε}
  {brings : Entry α ε → α → Prop} {which gapFor : Entry α ε → Bool}
  {method : Entry α ε → LiveQuery α ε}

/-- What holds of a query between two events. -/
structure Entry.Fine (e : Entry α ε) (now : Nat) (visible : Bool) : Prop where
  tries : e.query.Tries now
  awake : e.query.Awake visible
  readAt : e.readAt ≤ now

namespace Hub

/-- No update starts in a hidden tab. -/
theorem Feeds.quiet (h : Feeds m brings hub hub') (hhidden : m.visible = false) {e' : Entry α ε}
    (he' : e' ∈ hub'.entries) {call : Call α} (hcall : e'.query.running = some call) :
    ∃ e ∈ hub.entries, e.key = e'.key ∧ e.query.running = some call := by
  obtain ⟨e, he, hserved, _⟩ := h e' he'
  exact ⟨e, he, hserved.key.symm, hserved.query.quiet hhidden call hcall⟩

theorem Feeds.fine (h : Feeds m brings hub hub')
    (hfine : ∀ e ∈ hub.entries, e.Fine m.now m.visible) :
    ∀ e' ∈ hub'.entries, e'.Fine m.now m.visible := by
  intro e' he'
  obtain ⟨e, he, hserved, _⟩ := h e' he'
  obtain ⟨htries, hawake, hread⟩ := hfine e he
  exact ⟨hserved.query.tries htries, hserved.query.awake htries hawake, hserved.readAt ▸ hread⟩

/-- Nothing waits on nothing: what a query has queued has an update under way, what failed is tried
again soon, and what is collected is handed over at the end of the window, unless the tab is hidden;
and live updates are paused, or about to be, only while the stream is down. -/
structure Sound (hub : Hub α ε) (now : Nat) : Prop where
  entries : ∀ e ∈ hub.entries, e.Fine now (!hub.hidden)
  held : hub.batcher.held = hub.hidden
  window : hub.batcher.ids.Nonempty → hub.hidden = true ∨ hub.batcher.timer.isSome = true
  ends : ∀ ends ∈ hub.batcher.timer, ends ≤ now + windowMs
  gap : hub.gapWaiting = true → hub.hidden = true
  opened : hub.openSince.isSome = true → hub.status = .connected ∧ hub.pauseTimer = none
  pauses : ∀ fires ∈ hub.pauseTimer, hub.status = .connected ∧ fires ≤ now + pausedAfterMs

theorem Sound.mono (h : hub.Sound now) (hlater : now ≤ later) : hub.Sound later := by
  refine { h with entries := fun e he => ?_, ends := fun ends hends => ?_, pauses := fun t ht => ?_ }
  · obtain ⟨htries, hawake, hread⟩ := h.entries e he
    exact ⟨htries.mono hlater, hawake, hread.trans hlater⟩
  · have hbefore := h.ends ends hends
    omega
  · obtain ⟨hstatus, hbefore⟩ := h.pauses t ht
    exact ⟨hstatus, by omega⟩

theorem Sound.serve (h : hub.Sound now)
    (hmethod : ∀ e ∈ hub.entries, which e = true →
      LiveQuery.Served (hub.moment now seen) e.query (method e)) :
    (hub.serve which method).Sound now :=
  { h with entries := (serve_feeds hmethod).fine h.entries }

theorem Sound.taken (h : hub.Sound now) : { hub with batcher := hub.batcher.take }.Sound now where
  entries := h.entries
  held := h.held
  window hids := by simp [Batcher.take] at hids
  ends ends hends := by cases hends
  gap := h.gap
  opened := h.opened
  pauses := h.pauses

theorem Sound.stop (h : hub.Sound now) : hub.stop.Sound now where
  entries := h.entries
  held := h.held
  window := h.taken.window
  ends := h.taken.ends
  gap := h.gap
  opened hopen := by cases hopen
  pauses fires hfires := by cases hfires

theorem Sound.drop (h : hub.Sound now) : (hub.drop now).Sound now where
  entries := h.entries
  held := h.held
  window := h.window
  ends := h.ends
  gap := h.gap
  opened hopen := by cases hopen
  pauses fires hfires := by
    unfold Hub.drop at hfires ⊢
    dsimp only at hfires ⊢
    split at hfires
    next hconnected =>
      cases hfires
      rw [Bool.and_eq_true] at hconnected
      exact ⟨of_decide_eq_true hconnected.2, le_rfl⟩
    next => exact h.pauses fires hfires

theorem Sound.pauseFires (h : hub.Sound now) (hpending : hub.pauseTimer.isSome = true) :
    hub.pauseFires.Sound now where
  entries := h.entries
  held := h.held
  window := h.window
  ends := h.ends
  gap := h.gap
  opened hopen := by
    rw [(h.opened hopen).2] at hpending
    cases hpending
  pauses fires hfires := by cases hfires

theorem Sound.hide (h : hub.Sound now) : (hub.hide now).Sound now := by
  unfold Hub.hide
  split
  next => exact h
  next =>
    refine { h with entries := fun e he => ?_, held := rfl, window := fun _ => Or.inl rfl,
                    ends := fun ends hends => ?_, gap := fun _ => rfl }
    · obtain ⟨htries, _, hread⟩ := h.entries e he
      exact ⟨htries, fun _ hvisible => absurd hvisible Bool.false_ne_true, hread⟩
    · cases hends

theorem hide_openSince : (hub.hide now).openSince = hub.openSince := by
  unfold Hub.hide
  split <;> rfl

theorem hide_feeds : Feeds m (fun _ _ => False) hub (hub.hide now) := by
  unfold Hub.hide
  split <;> exact feeds_of_entries rfl fun _ _ _ _ h => h.resolve_left id

theorem Sound.share (h : hub.Sound now) {key : Nat} : (hub.share key).Sound now :=
  { h with entries := (@share_feeds α ε hub ⟨now, !hub.hidden, 0⟩ key).fine h.entries }

theorem Sound.leave (h : hub.Sound now) {key : Nat} {shareAs : Option Text} :
    (hub.leave key shareAs).Sound now :=
  { h with entries := (@leave_feeds α ε hub ⟨now, !hub.hidden, 0⟩ key shareAs).fine h.entries }

variable [DecidableEq α]

theorem deliver_eq {ids : Finset α} {gap : Bool} :
    ∃ es, hub.deliver now seen ids gap gapFor = { hub with entries := es } := by
  unfold deliver
  split
  next => exact ⟨hub.entries, rfl⟩
  next => exact ⟨_, rfl⟩

theorem deliver_openSince {ids : Finset α} {gap : Bool} :
    (hub.deliver now seen ids gap gapFor).openSince = hub.openSince := by
  obtain ⟨es, heq⟩ := @deliver_eq α ε hub now seen gapFor _ ids gap
  rw [heq]

theorem recover_hidden : (hub.recover now seen which).hidden = hub.hidden := by
  unfold Hub.recover
  split
  next =>
    split
    next => rfl
    next =>
      obtain ⟨es, heq⟩ := @deliver_eq α ε { hub with batcher := hub.batcher.take } now seen which _
        hub.batcher.ids true
      rw [heq]
  next => rfl

theorem change_hidden {id : α} : (hub.change now id).hidden = hub.hidden := by
  unfold Hub.change
  split <;> rfl

theorem windowFires_hidden : (hub.windowFires now seen).hidden = hub.hidden := by
  obtain ⟨es, heq⟩ := @deliver_eq α ε { hub with batcher := hub.batcher.take } now seen
    (fun _ => true) _ hub.batcher.ids false
  rw [windowFires, heq]

theorem openAt_hidden {since : Nat} : (hub.openAt now seen since).hidden = hub.hidden := by
  unfold Hub.openAt
  split
  next => rfl
  next => exact recover_hidden

theorem enter_hidden {shareAs : Option Text} {read : Option (Nat × Nat)} :
    (hub.enter now seen shareAs read).hidden = hub.hidden := by
  unfold Hub.enter
  dsimp only
  split
  next =>
    split
    next => exact recover_hidden
    next => rfl
  next => rfl

theorem recover_openSince : (hub.recover now seen which).openSince = hub.openSince := by
  unfold Hub.recover
  split
  next =>
    split
    next => rfl
    next => exact deliver_openSince
  next => rfl

theorem change_openSince {id : α} : (hub.change now id).openSince = hub.openSince := by
  unfold Hub.change
  split <;> rfl

theorem showTab_openSince : (hub.showTab now seen).openSince = hub.openSince := by
  unfold Hub.showTab
  split
  next => exact deliver_openSince
  next => rfl

theorem enter_openSince {shareAs : Option Text} {read : Option (Nat × Nat)} :
    (hub.enter now seen shareAs read).openSince = hub.openSince := by
  unfold Hub.enter
  dsimp only
  split
  next =>
    split
    next => exact recover_openSince
    next => rfl
  next => rfl

theorem Sound.deliver (h : hub.Sound now) {ids : Finset α} {gap : Bool} :
    (hub.deliver now seen ids gap gapFor).Sound now := by
  have hfine := (@deliver_feeds α ε hub now seen ids gap gapFor _).fine h.entries
  obtain ⟨es, heq⟩ := @deliver_eq α ε hub now seen gapFor _ ids gap
  rw [heq] at hfine ⊢
  exact { h with entries := hfine }

theorem Sound.recover (h : hub.Sound now) : (hub.recover now seen which).Sound now := by
  unfold Hub.recover
  split
  next =>
    split
    next hhidden => exact { h with gap := fun _ => hhidden }
    next => exact h.taken.deliver
  next => exact h

theorem Sound.windowFires (h : hub.Sound now) : (hub.windowFires now seen).Sound now :=
  h.taken.deliver

theorem Sound.change (h : hub.Sound now) {id : α} : (hub.change now id).Sound now := by
  unfold Hub.change
  split
  next hfull =>
    rw [Bool.and_eq_true] at hfull
    refine { h with window := fun hids => ?_, ends := fun ends hends => ?_, gap := fun _ => hfull.1 }
    · simp [Batcher.take] at hids
    · cases hends
  next =>
    refine { h with window := fun _ => ?_, ends := fun ends hends => ?_ }
    · rw [← h.held]
      cases hheld : hub.batcher.held with
      | true => exact Or.inl rfl
      | false => cases htimer : hub.batcher.timer <;> simp [Batcher.add, hheld, htimer]
    · unfold Batcher.add at hends
      dsimp only at hends
      split at hends
      next =>
        cases hends
        exact le_rfl
      next => exact h.ends ends hends

theorem Sound.openAt (h : hub.Sound now) {since : Nat} : (hub.openAt now seen since).Sound now := by
  unfold Hub.openAt
  split
  next =>
    exact { h with opened := fun _ => ⟨rfl, rfl⟩, pauses := fun fires hfires => by cases hfires }
  next =>
    have hopened : { hub with pauseTimer := none, status := .connected, openSince := some since }.Sound
        now :=
      { h with opened := fun _ => ⟨rfl, rfl⟩, pauses := fun fires hfires => by cases hfires }
    exact { hopened.recover with }

theorem Sound.showTab (h : hub.Sound now) : (hub.showTab now seen).Sound now := by
  unfold Hub.showTab
  split
  next =>
    set back : Hub α ε :=
      { hub with hidden := false, gapWaiting := false, batcher := hub.batcher.release } with hback
    set gap := hub.gapWaiting || decide (hiddenGapMs < now - hub.hiddenAt)
    have hserved := @deliver_feeds α ε back now seen hub.batcher.ids gap (fun _ => true) _
    obtain ⟨es, heq⟩ := @deliver_eq α ε back now seen (fun _ => true) _ hub.batcher.ids gap
    dsimp only
    rw [heq] at hserved ⊢
    refine ⟨fun e'' he'' => ?_, rfl, fun hids => ?_, fun ends hends => ?_, fun hgap => ?_,
      h.opened, h.pauses⟩
    · obtain ⟨e', he', hcases⟩ := mem_serve he''
      obtain ⟨e, he, hquery, _⟩ := hserved e' he'
      obtain ⟨htries, _, hread⟩ := h.entries e he
      have htries' := hquery.query.tries htries
      have hread' : e'.readAt ≤ now := hquery.readAt ▸ hread
      rcases hcases with ⟨hgone, rfl⟩ | ⟨_, rfl⟩
      · refine ⟨htries', fun hlive => ?_, hread'⟩
        rw [registered, hlive] at hgone
        cases hgone
      · exact ⟨(LiveQuery.resume_tries htries').1, (LiveQuery.resume_tries htries').2, hread'⟩
    · simp [hback, Hub.serve, Batcher.release, Batcher.take] at hids
    · cases hends
    · cases hgap
  next => exact h

/-- A query's entry as it is entered. -/
theorem Sound.enter (h : hub.Sound now) {shareAs : Option Text} {read : Option (Nat × Nat)}
    (hread : ∀ r ∈ read, r.1 ≤ now) : (hub.enter now seen shareAs read).Sound now := by
  have hentered : { hub with entries := hub.entries ++ [hub.entry now seen shareAs read] }.Sound
      now := by
    refine { h with entries := fun e he => ?_ }
    rcases List.mem_append.mp he with hold | hnew
    · exact h.entries e hold
    · obtain rfl := List.mem_singleton.mp hnew
      refine ⟨⟨by simp [entry, failuresShown], fun retry hretry => ?_, fun _ hfails => ?_⟩,
        fun _ _ hqueued => ?_, ?_⟩
      · cases hretry
      · cases hfails
      · simp [entry, LiveQuery.queued] at hqueued
      · cases read with
        | none => exact le_rfl
        | some r => exact hread r rfl
  unfold Hub.enter
  dsimp only
  split
  next =>
    split
    next => exact hentered.recover
    next => exact hentered
  next => exact hentered

theorem Sound.register (h : hub.Sound now) {shareAs : Option Text} {read : Option (Nat × Nat)}
    (hread : ∀ r ∈ read, r.1 ≤ now) : (hub.register now seen shareAs read).1.Sound now := by
  unfold Hub.register
  split
  next => exact h.share
  next => exact h.enter hread

end Hub

end Sound

/-- What the hub knows of the users of a query. -/
structure Share where
  key : Nat
  shareAs : Option Text
  users : Nat
  mounted : Bool

namespace Share

def sharing (name : Text) (s : Share) : Bool :=
  s.mounted && decide (s.shareAs = some name)

def isWith (key : Nat) (shareAs : Option Text) (s : Share) : Bool :=
  match shareAs with
  | some name => s.sharing name
  | none => decide (s.key = key)

def join (s : Share) : Share :=
  { s with users := s.users + 1 }

def leave (s : Share) : Share :=
  { s with users := s.users - 1, mounted := s.mounted && decide (1 < s.users) }

/-- A change of the users of a query; a query that is disposed stays so. -/
structure Keeps (s s' : Share) : Prop where
  key : s'.key = s.key
  shareAs : s'.shareAs = s.shareAs
  mounted : s'.mounted = true → s.mounted = true

theorem keeps_join {s : Share} : s.Keeps s.join :=
  ⟨rfl, rfl, id⟩

theorem keeps_leave {s : Share} : s.Keeps s.leave :=
  ⟨rfl, rfl, fun hlive => (Bool.and_eq_true_iff.mp hlive).1⟩

theorem keeps_ite {which : Share → Prop} [DecidablePred which] {change : Share → Share}
    (h : ∀ s : Share, s.Keeps (change s)) (s : Share) : s.Keeps (if which s then change s else s) := by
  split
  next => exact h s
  next => exact ⟨rfl, rfl, id⟩

end Share

def Entry.share {α ε : Type} (e : Entry α ε) : Share :=
  ⟨e.key, e.shareAs, e.users, !e.query.disposed⟩

section Shares

variable {α ε : Type} {hub : Hub α ε} {now seen key : Nat} {shareAs : Option Text}
  {read : Option (Nat × Nat)} {ids : Finset α} {gap : Bool} {which gapFor : Entry α ε → Bool}
  {method : Entry α ε → LiveQuery α ε}

theorem Entry.isWith_share {e : Entry α ε} :
    e.share.isWith key shareAs = Hub.isWith key shareAs e := by
  cases shareAs <;> rfl

namespace Hub

def shares (hub : Hub α ε) : List Share :=
  hub.entries.map Entry.share

theorem serve_shares (hmethod : ∀ e ∈ hub.entries, (method e).disposed = e.query.disposed) :
    (hub.serve which method).shares = hub.shares := by
  rw [shares, shares, serve, List.map_map]
  refine List.map_congr_left fun e he => ?_
  dsimp only [Function.comp_apply]
  split
  next => rw [Entry.share, Entry.share, hmethod e he]
  next => rfl

theorem share_shares : (hub.share key).shares =
    hub.shares.map fun s => if s.key = key then s.join else s := by
  rw [shares, shares, share, List.map_map, List.map_map]
  refine List.map_congr_left fun e _ => ?_
  dsimp only [Function.comp_apply]
  rw [show e.share.key = e.key from rfl]
  split <;> rfl

theorem leave_shares : (hub.leave key shareAs).shares =
    hub.shares.map fun s => if s.isWith key shareAs then s.leave else s := by
  rw [shares, shares, leave, List.map_map, List.map_map]
  refine List.map_congr_left fun e _ => ?_
  dsimp only [Function.comp_apply]
  rw [Entry.isWith_share]
  split
  next =>
    dsimp only [Entry.share, Share.leave]
    split
    next hmore => rw [decide_eq_true hmore, Bool.and_true]
    next hlast => rw [decide_eq_false hlast, Bool.and_false, LiveQuery.dispose, Bool.not_true]
  next => rfl

variable [DecidableEq α]

theorem deliver_shares : (hub.deliver now seen ids gap gapFor).shares = hub.shares := by
  unfold deliver
  split
  next => rfl
  next => exact serve_shares fun _ _ => LiveQuery.push_disposed

theorem recover_shares : (hub.recover now seen which).shares = hub.shares := by
  unfold recover
  split
  next =>
    split
    next => rfl
    next => exact deliver_shares
  next => rfl

theorem change_shares {id : α} : (hub.change now id).shares = hub.shares := by
  unfold change
  split <;> rfl

theorem openAt_shares {since : Nat} : (hub.openAt now seen since).shares = hub.shares := by
  unfold openAt
  split
  next => rfl
  next => exact recover_shares

theorem showTab_shares : (hub.showTab now seen).shares = hub.shares := by
  unfold showTab
  split
  next => exact (serve_shares fun _ _ => LiveQuery.resume_disposed).trans deliver_shares
  next => rfl

theorem windowFires_shares : (hub.windowFires now seen).shares = hub.shares :=
  deliver_shares

theorem enter_shares : (hub.enter now seen shareAs read).shares =
    hub.shares ++ [⟨hub.entries.length, shareAs, 1, true⟩] := by
  have hentered : ({ hub with
      entries := hub.entries ++ [hub.entry now seen shareAs read] } : Hub α ε).shares =
        hub.shares ++ [⟨hub.entries.length, shareAs, 1, true⟩] := by
    rw [shares, shares, List.map_append]
    rfl
  unfold enter
  dsimp only
  split
  next =>
    split
    next => exact recover_shares.trans hentered
    next => exact hentered
  next => exact hentered

end Hub

end Shares

end Trackinizer.Live
