import Trackinizer.Lib.Trace
import Trackinizer.LiveHub

namespace Trackinizer.Live

/-- What the server sends on a stream: that it listens, and each change that is written since. -/
inductive Frame (α : Type) where
  | opened
  | change (id : α)
deriving DecidableEq

/-- What `register` returned; `left` is `done` of its `dispose`. -/
structure Registration where
  key : Nat
  shareAs : Option Text
  left : Bool := false

/-- The hub of a page with the stream that it is attached to, the reads that `prefetch` started (when,
and how many changes were written by then) and the server's change log. `openedAt` is the early
stream's. -/
structure Layer (α ε : Type) where
  now : Nat := 0
  log : List α := []
  listening : Bool := false
  wire : List (Frame α) := []
  openedAt : Option Nat := none
  attached : Bool := false
  reads : List (Nat × Nat) := []
  registrations : List Registration := []
  hub : Hub α ε := {}

inductive Event (α ε : Type) where
  | tick (ms : Nat)
  | commit (id : α)
  | connect
  | cut (kept : Nat)
  | drop
  | hear
  | attach
  | prefetch
  | register (shareAs : Option Text) (read : Option (Nat × Nat))
  | dispose (registration : Nat)
  | hide
  | back
  | online
  | stop
  | windowEnds
  | pauseEnds
  | push (key : Nat) (ids : Finset α) (gap : Bool)
  | settle (key : Nat) (answer : Answer ε)
  | laterEnds (key : Nat)
  | retryEnds (key : Nat)
  | retryNow (key : Nat)

namespace Layer

section Steps

variable {α ε : Type} [DecidableEq α] (l : Layer α ε)

/-- When the stream opened, as far as the page has heard. -/
def openFrom : Option Nat :=
  if l.attached then l.hub.openSince else l.openedAt

def moment : Moment :=
  l.hub.moment l.now l.log.length

/-- A method called on the query of a key. -/
def serve (key : Nat) (method : LiveQuery α ε → LiveQuery α ε) : Layer α ε :=
  { l with hub := l.hub.serve (fun e => decide (e.key = key)) fun e => method e.query }

/-- Some query of the key has a timer that is over. -/
def timerOver (key : Nat) (timer : LiveQuery α ε → Option Nat) : Bool :=
  l.hub.entries.any fun e => decide (e.key = key) && (timer e.query).any fun ends => decide (ends ≤ l.now)

/-- The next frame of the stream; the early stream keeps only when it opened. -/
def hear : Frame α → Layer α ε
  | .opened =>
      if l.attached then { l with hub := l.hub.openAt l.now l.log.length l.now }
      else { l with openedAt := some l.now }
  | .change id => if l.attached then { l with hub := l.hub.change l.now id } else l

/-- The mount of `LiveProvider`: `attachStream` with the early stream. -/
def attach : Layer α ε :=
  { l with
    attached := true
    hub := match l.openedAt with
      | none => l.hub.drop l.now
      | some since => (l.hub.drop l.now).openAt l.now l.log.length since }

/-- What can happen next, or `none` where it cannot. A new connection is made when the page has heard
that the last one dropped. -/
def step : Event α ε → Option (Layer α ε)
  | .tick ms => some { l with now := l.now + ms }
  | .commit id =>
      some { l with
        log := l.log ++ [id]
        wire := if l.listening then l.wire ++ [.change id] else l.wire }
  | .connect =>
      if !l.listening && l.wire.isEmpty && l.openFrom.isNone then
        some { l with listening := true, wire := [.opened] }
      else none
  | .cut kept => some { l with listening := false, wire := l.wire.take kept }
  | .drop =>
      some { l with
        listening := false
        wire := []
        openedAt := none
        hub := if l.attached then l.hub.drop l.now else l.hub }
  | .hear =>
      match l.wire with
      | [] => none
      | frame :: wire => some ({ l with wire := wire }.hear frame)
  | .attach => if l.attached then none else some l.attach
  | .prefetch => some { l with reads := (l.now, l.log.length) :: l.reads }
  | .register shareAs read =>
      if read.all fun r => decide (r ∈ l.reads) then
        some { l with
          hub := (l.hub.register l.now l.log.length shareAs read).1
          registrations := l.registrations ++
            [⟨(l.hub.register l.now l.log.length shareAs read).2, shareAs, false⟩] }
      else none
  | .dispose registration =>
      match l.registrations[registration]? with
      | none => none
      | some r =>
          if r.left then some l
          else some { l with
            hub := l.hub.leave r.key r.shareAs
            registrations := l.registrations.set registration { r with left := true } }
  | .hide => some { l with hub := l.hub.hide l.now }
  | .back => some { l with hub := l.hub.showTab l.now l.log.length }
  | .online => some { l with hub := l.hub.online l.now l.log.length }
  | .stop =>
      if l.attached then some { l with listening := false, wire := [], hub := l.hub.stop } else none
  | .windowEnds =>
      if l.hub.batcher.timer.any fun ends => decide (ends ≤ l.now) then
        some { l with hub := l.hub.windowFires l.now l.log.length }
      else none
  | .pauseEnds =>
      if l.hub.pauseTimer.any fun ends => decide (ends ≤ l.now) then
        some { l with hub := l.hub.pauseFires }
      else none
  | .push key ids gap => some (l.serve key fun q => q.push l.moment ⟨ids, gap⟩)
  | .settle key answer => some (l.serve key fun q => q.settle l.moment answer)
  | .laterEnds key =>
      if l.timerOver key fun q => q.later then some (l.serve key fun q => q.laterFires l.moment)
      else none
  | .retryEnds key =>
      if l.timerOver key fun q => q.retry.map Retry.fires then
        some (l.serve key fun q => q.retryNow l.moment)
      else none
  | .retryNow key => some (l.serve key fun q => q.retryNow l.moment)

/-- What an event that can happen does. -/
inductive Does : Event α ε → Layer α ε → Prop where
  | tick {ms : Nat} : Does (.tick ms) { l with now := l.now + ms }
  | commit {id : α} : Does (.commit id) { l with
      log := l.log ++ [id]
      wire := if l.listening then l.wire ++ [.change id] else l.wire }
  | connect (hclosed : l.openFrom = none) :
      Does .connect { l with listening := true, wire := [.opened] }
  | cut {kept : Nat} : Does (.cut kept) { l with listening := false, wire := l.wire.take kept }
  | drop : Does .drop { l with
      listening := false
      wire := []
      openedAt := none
      hub := if l.attached then l.hub.drop l.now else l.hub }
  | hear {frame : Frame α} {wire : List (Frame α)} (hwire : l.wire = frame :: wire) :
      Does .hear (Layer.hear { l with wire := wire } frame)
  | attach (hbefore : l.attached = false) : Does .attach l.attach
  | prefetch : Does .prefetch { l with reads := (l.now, l.log.length) :: l.reads }
  | register {shareAs : Option Text} {read : Option (Nat × Nat)} (hreads : ∀ r ∈ read, r ∈ l.reads) :
      Does (.register shareAs read) { l with
        hub := (l.hub.register l.now l.log.length shareAs read).1
        registrations := l.registrations ++
          [⟨(l.hub.register l.now l.log.length shareAs read).2, shareAs, false⟩] }
  -- `once`: a second dispose does nothing
  | disposed {registration : Nat} : Does (.dispose registration) l
  | dispose {registration : Nat} {r : Registration} (hr : l.registrations[registration]? = some r)
      (hopen : r.left = false) : Does (.dispose registration) { l with
        hub := l.hub.leave r.key r.shareAs
        registrations := l.registrations.set registration { r with left := true } }
  | hide : Does .hide { l with hub := l.hub.hide l.now }
  | back : Does .back { l with hub := l.hub.showTab l.now l.log.length }
  | online : Does .online { l with hub := l.hub.online l.now l.log.length }
  | stop : Does .stop { l with listening := false, wire := [], hub := l.hub.stop }
  | windowEnds : Does .windowEnds { l with hub := l.hub.windowFires l.now l.log.length }
  | pauseEnds (hpending : l.hub.pauseTimer.isSome = true) :
      Does .pauseEnds { l with hub := l.hub.pauseFires }
  | serve {event : Event α ε} {key : Nat} {method : LiveQuery α ε → LiveQuery α ε}
      (hserved : ∀ q, LiveQuery.Served l.moment q (method q))
      (hdisposed : ∀ q, (method q).disposed = q.disposed) : Does event (l.serve key method)

end Steps

section Does

variable {α ε : Type} [DecidableEq α] {l l' : Layer α ε} {event : Event α ε}

theorem step_does (hstep : l.step event = some l') : l.Does event l' := by
  cases event with
  | tick ms =>
    cases hstep
    exact .tick
  | commit id =>
    cases hstep
    exact .commit
  | connect =>
    obtain ⟨hidle, hstep⟩ := Option.ite_none_right_eq_some.mp hstep
    cases hstep
    rw [Bool.and_eq_true, Option.isNone_iff_eq_none] at hidle
    exact .connect hidle.2
  | cut kept =>
    cases hstep
    exact .cut
  | drop =>
    cases hstep
    exact .drop
  | hear =>
    rw [Layer.step] at hstep
    split at hstep
    next => cases hstep
    next hwire =>
      cases hstep
      exact .hear hwire
  | attach =>
    obtain ⟨hbefore, hstep⟩ := Option.ite_none_left_eq_some.mp hstep
    cases hstep
    exact .attach (Bool.not_eq_true _ ▸ hbefore)
  | prefetch =>
    cases hstep
    exact .prefetch
  | register shareAs read =>
    obtain ⟨hreads, hstep⟩ := Option.ite_none_right_eq_some.mp hstep
    cases hstep
    refine .register fun r hr => ?_
    cases hr
    exact of_decide_eq_true hreads
  | dispose registration =>
    rw [Layer.step] at hstep
    split at hstep
    next => cases hstep
    next r hr =>
      split at hstep
      next =>
        cases hstep
        exact .disposed
      next hopen =>
        cases hstep
        exact .dispose hr (Bool.not_eq_true _ ▸ hopen)
  | hide =>
    cases hstep
    exact .hide
  | back =>
    cases hstep
    exact .back
  | online =>
    cases hstep
    exact .online
  | stop =>
    obtain ⟨_, hstep⟩ := Option.ite_none_right_eq_some.mp hstep
    cases hstep
    exact .stop
  | windowEnds =>
    obtain ⟨_, hstep⟩ := Option.ite_none_right_eq_some.mp hstep
    cases hstep
    exact .windowEnds
  | pauseEnds =>
    obtain ⟨hends, hstep⟩ := Option.ite_none_right_eq_some.mp hstep
    cases hstep
    obtain ⟨ends, hsome, _⟩ := (Option.any_eq_true _ _).mp hends
    exact .pauseEnds (hsome ▸ rfl)
  | push key ids gap =>
    cases hstep
    exact .serve (fun _ => LiveQuery.push_served) fun _ => LiveQuery.push_disposed
  | settle key answer =>
    cases hstep
    exact .serve (fun _ => LiveQuery.settle_served) fun _ => LiveQuery.settle_disposed
  | laterEnds key =>
    obtain ⟨_, hstep⟩ := Option.ite_none_right_eq_some.mp hstep
    cases hstep
    exact .serve (fun _ => LiveQuery.laterFires_served) fun _ => LiveQuery.laterFires_disposed
  | retryEnds key =>
    obtain ⟨_, hstep⟩ := Option.ite_none_right_eq_some.mp hstep
    cases hstep
    exact .serve (fun _ => LiveQuery.retryNow_served) fun _ => LiveQuery.retryNow_disposed
  | retryNow key =>
    cases hstep
    exact .serve (fun _ => LiveQuery.retryNow_served) fun _ => LiveQuery.retryNow_disposed

end Does

section Sound

variable {α ε : Type} {l l' : Layer α ε} {event : Event α ε} {trace : List (Event α ε)}

/-- The hub is sound, and what was read was read by now. -/
structure Steady (l : Layer α ε) : Prop where
  sound : l.hub.Sound l.now
  reads : ∀ r ∈ l.reads, r.1 ≤ l.now

theorem Steady.with_hub (h : l.Steady) {hub : Hub α ε} {wire : List (Frame α)} {listening : Bool}
    {registrations : List Registration} (hsound : hub.Sound l.now) :
    Steady { l with hub := hub, wire := wire, listening := listening, registrations := registrations } :=
  ⟨hsound, h.reads⟩

theorem steady_initial : (({} : Layer α ε)).Steady where
  sound :=
    { entries := fun e he => absurd he List.not_mem_nil
      held := rfl
      window := fun hids => by simp at hids
      ends := fun ends hends => by cases hends
      gap := fun hgap => by cases hgap
      opened := fun hopen => by cases hopen
      pauses := fun fires hfires => by cases hfires }
  reads r hr := absurd hr List.not_mem_nil

theorem Steady.serve (h : l.Steady) {key : Nat} {method : LiveQuery α ε → LiveQuery α ε}
    (hmethod : ∀ q, LiveQuery.Served l.moment q (method q)) : (l.serve key method).Steady :=
  h.with_hub (h.sound.serve fun e _ _ => hmethod e.query)

variable [DecidableEq α]

theorem Steady.hear (h : l.Steady) {frame : Frame α} : (l.hear frame).Steady := by
  cases frame with
  | opened =>
    rw [Layer.hear]
    split
    next => exact h.with_hub h.sound.openAt
    next => exact ⟨h.sound, h.reads⟩
  | change id =>
    rw [Layer.hear]
    split
    next => exact h.with_hub h.sound.change
    next => exact h

theorem Steady.step (h : l.Steady) (hstep : l.step event = some l') : l'.Steady := by
  cases step_does hstep with
  | tick =>
    exact ⟨h.sound.mono (Nat.le_add_right ..), fun r hr => (h.reads r hr).trans (Nat.le_add_right ..)⟩
  | commit | connect | cut => exact ⟨h.sound, h.reads⟩
  | drop =>
    refine ⟨?_, h.reads⟩
    dsimp only
    split
    next => exact h.sound.drop
    next => exact h.sound
  | @hear _ wire _ =>
    have hrest : ({ l with wire := wire } : Layer α ε).Steady := ⟨h.sound, h.reads⟩
    exact hrest.hear
  | attach =>
    refine ⟨?_, h.reads⟩
    unfold Layer.attach
    dsimp only
    split
    next => exact h.sound.drop
    next => exact h.sound.drop.openAt
  | prefetch =>
    refine ⟨h.sound, fun r hr => ?_⟩
    rcases List.mem_cons.mp hr with rfl | hold
    · exact le_rfl
    · exact h.reads r hold
  | register hreads => exact ⟨h.sound.register fun r hr => h.reads r (hreads r hr), h.reads⟩
  | disposed => exact h
  | dispose => exact h.with_hub h.sound.leave
  | hide => exact h.with_hub h.sound.hide
  | back => exact h.with_hub h.sound.showTab
  | online => exact h.with_hub h.sound.recover
  | stop => exact h.with_hub h.sound.stop
  | windowEnds => exact h.with_hub h.sound.windowFires
  | pauseEnds hpending => exact h.with_hub (h.sound.pauseFires hpending)
  | serve hserved => exact h.serve hserved

end Sound

section Kept

variable {α ε : Type} {l l' : Layer α ε} {event : Event α ε} {trace : List (Event α ε)}
  {m : Moment} {e : Entry α ε} {brings : Entry α ε → α → Prop} {id : α} {place readAt : Nat}

/-- The change has not reached the hub, and will: it is on its way, or the next open of the stream
makes the queries whose reads started at this time catch up. -/
def Elsewhere (l : Layer α ε) (readAt : Nat) (id : α) : Prop :=
  Frame.change id ∈ l.wire ∨ l.listening = false ∨
    ∀ since, l.openFrom = some since → l.attached = false ∧ readAt ≤ since

/-- A change that a query may have missed in its reads is one that its updates bring, or that the hub
holds for it, or that will reach the hub. -/
def Caught (l : Layer α ε) (e : Entry α ε) (id : α) (place : Nat) : Prop :=
  e.query.Has id place ∨ l.hub.Holds id ∨ l.Elsewhere e.readAt id

/-- What holds of the live layer between two events. -/
structure Kept (l : Layer α ε) : Prop where
  steady : l.Steady
  caught : ∀ e ∈ l.hub.entries, e.query.disposed = false →
    ∀ {place id}, l.log[place]? = some id → e.readFrom ≤ place → l.Caught e id place
  opened : Frame.opened ∈ l.wire → l.openFrom = none
  once : Frame.opened ∉ l.wire.tail
  unattached : l.attached = false → l.hub.openSince = none

/-- No frame is heard between a query's registration and the mount of the layer, which are one task;
and a query that brings a read begun after the stream opened registers before a change written since
that read is heard. The page does the first. The second it does where the read starts with the page,
but the detail of `#/ref/Issue/412` is read once the lookup has answered. -/
def Prompt (l : Layer α ε) : Event α ε → Prop
  | .hear => l.attached = true ∨ l.hub.entries = []
  | .register _ (some read) => ∀ since ∈ l.openFrom,
      read.1 ≤ since ∨ ∀ id ∈ l.log.drop read.2, Frame.change id ∈ l.wire
  | _ => True

theorem Kept.caught_after (h : l.Kept) (hfeeds : Hub.Feeds m brings l.hub l'.hub)
    (hseen : m.seen = l.log.length)
    (hafter : ∀ e ∈ l.hub.entries, ∀ id, l.Elsewhere e.readAt id →
      brings e id ∨ l'.Elsewhere e.readAt id)
    {e' : Entry α ε} (he' : e' ∈ l'.hub.entries) (hlive : e'.query.disposed = false)
    (hlog : l.log[place]? = some id) (hfrom : e'.readFrom ≤ place) : l'.Caught e' id place := by
  obtain ⟨e, he, hserved, hfed⟩ := hfeeds e' he'
  have hplace : place < m.seen := by
    rw [hseen]
    exact (List.getElem?_eq_some_iff.mp hlog).1
  have hcaught := h.caught e he (hserved.query.mounted hlive) hlog (hserved.readFrom ▸ hfrom)
  have hkept : ∀ hhas : brings e id ∨ e.query.Has id place ∨ l.hub.Holds id,
      l'.Caught e' id place :=
    fun hhas => (hfed hlive hplace hhas).imp_right Or.inl
  rcases hcaught with hhas | hheld | helse
  · exact hkept (Or.inr (Or.inl hhas))
  · exact hkept (Or.inr (Or.inr hheld))
  · rcases hafter e he id helse with hnew | hstill
    · exact hkept (Or.inl hnew)
    · exact Or.inr (Or.inr (hserved.readAt ▸ hstill))

/-- An event that only calls the hub's methods on its queries. -/
theorem Kept.with_hub (h : l.Kept) {hub : Hub α ε} {registrations : List Registration}
    (hsound : hub.Sound l.now) (hfeeds : Hub.Feeds m (fun _ _ => False) l.hub hub)
    (hseen : m.seen = l.log.length) (hopen : hub.openSince = l.hub.openSince) :
    Kept { l with hub := hub, registrations := registrations } := by
  have hsince : ({ l with hub := hub, registrations := registrations } : Layer α ε).openFrom =
      l.openFrom := by
    unfold openFrom
    dsimp only
    rw [hopen]
  refine ⟨⟨hsound, h.steady.reads⟩, fun e he hlive place id hlog hfrom => ?_, fun hframe => ?_, h.once,
    fun hbefore => hopen.trans (h.unattached hbefore)⟩
  · refine h.caught_after hfeeds hseen (fun _ _ _ helse => Or.inr ?_) he hlive hlog hfrom
    exact helse.imp_right (Or.imp_right fun hopening since hs => hopening since (hsince.symm.trans hs))
  · exact hsince.trans (h.opened hframe)

theorem Kept.serve (h : l.Kept) {key : Nat} {method : LiveQuery α ε → LiveQuery α ε}
    (hmethod : ∀ q, LiveQuery.Served l.moment q (method q)) : (l.serve key method).Kept :=
  h.with_hub (h.steady.sound.serve fun e _ _ => hmethod e.query)
    (Hub.serve_feeds fun e _ _ => hmethod e.query) rfl rfl

/-- An event that leaves the hub alone. -/
theorem Kept.of_hub (h : l.Kept) (hsteady : l'.Steady) (hhub : l'.hub = l.hub) (hlog : l'.log = l.log)
    (hafter : ∀ readAt id, l.Elsewhere readAt id → l'.Elsewhere readAt id)
    (hopened : Frame.opened ∈ l'.wire → l'.openFrom = none) (honce : Frame.opened ∉ l'.wire.tail)
    (hunattached : l'.attached = false → l.attached = false) : l'.Kept := by
  have hfeeds : Hub.Feeds (⟨0, true, l.log.length⟩ : Moment) (fun _ _ => False) l.hub l'.hub :=
    Hub.feeds_of_entries (by rw [hhub]) fun _ _ _ _ h => hhub ▸ h.resolve_left id
  refine ⟨hsteady, fun e he hlive place id hplace hfrom => ?_, hopened, honce, fun hbefore => ?_⟩
  · rw [hlog] at hplace
    exact h.caught_after hfeeds rfl (fun e _ id helse => Or.inr (hafter e.readAt id helse)) he hlive
      hplace hfrom
  · rw [hhub]
    exact h.unattached (hunattached hbefore)

theorem Kept.commit (h : l.Kept) (id : α) : Kept { l with
    log := l.log ++ [id]
    wire := if l.listening then l.wire ++ [.change id] else l.wire } := by
  have hwire : ∀ frame ∈ l.wire,
      frame ∈ (if l.listening then l.wire ++ [.change id] else l.wire) := by
    intro frame hframe
    split
    next => exact List.mem_append_left _ hframe
    next => exact hframe
  refine ⟨⟨h.steady.sound, h.steady.reads⟩, fun e he hlive place other hlog hfrom => ?_,
    fun hframe => ?_, ?_, h.unattached⟩
  · dsimp only at hlog
    rw [List.getElem?_append] at hlog
    split at hlog
    next =>
      refine (h.caught e he hlive hlog hfrom).imp_right (Or.imp_right ?_)
      exact Or.imp_left (hwire _)
    next =>
      obtain rfl : id = other := by
        obtain ⟨_, hid⟩ := List.getElem?_eq_some_iff.mp hlog
        simpa using hid
      refine Or.inr (Or.inr ?_)
      cases hlistening : l.listening with
      | true => exact Or.inl (by simp)
      | false => exact Or.inr (Or.inl rfl)
  · refine h.opened ?_
    dsimp only at hframe
    split at hframe
    next => simpa using hframe
    next => exact hframe
  · dsimp only
    split
    next =>
      intro htail
      cases hwire : l.wire with
      | nil => simp [hwire] at htail
      | cons frame rest =>
        rw [hwire, List.cons_append, List.tail_cons] at htail
        have honce := h.once
        rw [hwire, List.tail_cons] at honce
        simp [honce] at htail
    next => exact h.once

theorem Kept.connect (h : l.Kept) (hclosed : l.openFrom = none) :
    Kept { l with listening := true, wire := [.opened] } := by
  refine h.of_hub ⟨h.steady.sound, h.steady.reads⟩ rfl rfl (fun readAt id _ => ?_)
    (fun _ => hclosed) List.not_mem_nil id
  refine Or.inr (Or.inr fun since hsince => ?_)
  cases hclosed.symm.trans hsince

theorem Kept.cut (h : l.Kept) (kept : Nat) :
    Kept { l with listening := false, wire := l.wire.take kept } := by
  refine h.of_hub ⟨h.steady.sound, h.steady.reads⟩ rfl rfl (fun _ _ _ => Or.inr (Or.inl rfl))
    (fun hframe => h.opened (List.mem_of_mem_take hframe)) (fun hframe => h.once ?_) id
  exact (List.take_sublist kept l.wire).tail.subset hframe

/-- The stream ends: what is written from now on reaches the hub when it opens again. -/
theorem Kept.ends (h : l.Kept) {openedAt : Option Nat} {hub : Hub α ε} (hsound : hub.Sound l.now)
    (hunattached : l.attached = false → hub.openSince = none) :
    Kept { l with listening := false, wire := [], openedAt := openedAt, hub := hub } :=
  ⟨⟨hsound, h.steady.reads⟩, fun _ _ _ _ _ _ _ => Or.inr (Or.inr (Or.inr (Or.inl rfl))),
    fun hframe => absurd hframe List.not_mem_nil, List.not_mem_nil, hunattached⟩

theorem kept_initial : ({} : Layer α ε).Kept where
  steady := steady_initial
  caught _ he := absurd he List.not_mem_nil
  opened hframe := absurd hframe List.not_mem_nil
  once := List.not_mem_nil
  unattached _ := rfl

variable [DecidableEq α]

/-- A frame that a page without queries hears before the layer mounts is kept only as an open. -/
theorem Kept.hear_early (h : l.Kept) {frame : Frame α} {wire : List (Frame α)}
    (hwire : l.wire = frame :: wire) (hattached : l.attached = false) (hnone : l.hub.entries = []) :
    ({ l with wire := wire } : Layer α ε).hear frame |>.Kept := by
  have honce : Frame.opened ∉ wire := by
    have htail := h.once
    rwa [hwire, List.tail_cons] at htail
  have hall : ∀ l' : Layer α ε, l'.Steady → l'.hub = l.hub → l'.wire = wire →
      l'.attached = false → l'.Kept := by
    intro l' hsteady hhub hrest hbefore
    refine ⟨hsteady, fun e he => ?_, fun hframe => ?_, fun hframe => ?_, fun _ => ?_⟩
    · rw [hhub, hnone] at he
      cases he
    · rw [hrest] at hframe
      exact absurd hframe honce
    · rw [hrest] at hframe
      exact absurd (List.mem_of_mem_tail hframe) honce
    · rw [hhub]
      exact h.unattached hattached
  have hrest : ({ l with wire := wire } : Layer α ε).Steady := ⟨h.steady.sound, h.steady.reads⟩
  have hearly : ¬ l.attached = true := by
    rw [hattached]
    exact Bool.false_ne_true
  cases frame with
  | opened =>
    have heq : ({ l with wire := wire } : Layer α ε).hear .opened =
        { l with wire := wire, openedAt := some l.now } := if_neg hearly
    exact hall _ hrest.hear (by rw [heq]) (by rw [heq]) (by rw [heq]; exact hattached)
  | change id =>
    have heq : ({ l with wire := wire } : Layer α ε).hear (.change id) = { l with wire := wire } :=
      if_neg hearly
    exact hall _ hrest.hear (by rw [heq]) (by rw [heq]) (by rw [heq]; exact hattached)

theorem Kept.hear (h : l.Kept) {frame : Frame α} {wire : List (Frame α)}
    (hwire : l.wire = frame :: wire) (hprompt : l.attached = true ∨ l.hub.entries = []) :
    ({ l with wire := wire } : Layer α ε).hear frame |>.Kept := by
  by_cases hattached : l.attached = true
  · have honce : Frame.opened ∉ wire := by
      have htail := h.once
      rwa [hwire, List.tail_cons] at htail
    have hrest : ({ l with wire := wire } : Layer α ε).Steady := ⟨h.steady.sound, h.steady.reads⟩
    have hopenFrom : l.openFrom = l.hub.openSince := if_pos hattached
    cases frame with
    | opened =>
      have hclosed : l.hub.openSince = none := by
        rw [← hopenFrom]
        exact h.opened (hwire ▸ List.mem_cons_self ..)
      have heq : ({ l with wire := wire } : Layer α ε).hear .opened =
          { l with wire := wire, hub := l.hub.openAt l.now l.log.length l.now } := if_pos hattached
      have hsteady : (({ l with wire := wire } : Layer α ε).hear .opened).Steady := hrest.hear
      rw [heq] at hsteady ⊢
      refine ⟨hsteady, fun e he hlive place id hlog hfrom => ?_, fun hframe => absurd hframe honce,
        fun hframe => absurd (List.mem_of_mem_tail hframe) honce, fun hbefore => ?_⟩
      · refine h.caught_after (Hub.openAt_feeds hclosed) rfl (fun e he _ _ => Or.inl (Or.inr ?_)) he
          hlive hlog hfrom
        exact (h.steady.sound.entries e he).readAt
      · exact absurd (hattached.symm.trans hbefore) (by decide)
    | change id =>
      have heq : ({ l with wire := wire } : Layer α ε).hear (.change id) =
          { l with wire := wire, hub := l.hub.change l.now id } := if_pos hattached
      have hsteady : (({ l with wire := wire } : Layer α ε).hear (.change id)).Steady :=
        hrest.hear
      rw [heq] at hsteady ⊢
      refine ⟨hsteady, fun e he hlive place other hlog hfrom => ?_,
        fun hframe => absurd hframe honce,
        fun hframe => absurd (List.mem_of_mem_tail hframe) honce, fun hbefore => ?_⟩
      · refine h.caught_after (@Hub.change_feeds α ε l.hub l.now l.moment _ id) rfl
          (fun e he other helse => ?_) he hlive hlog hfrom
        rcases helse with hframe | hdown | hopening
        · rw [hwire] at hframe
          rcases List.mem_cons.mp hframe with hthis | hrest
          · cases hthis
            exact Or.inl rfl
          · exact Or.inr (Or.inl hrest)
        · exact Or.inr (Or.inr (Or.inl hdown))
        · refine Or.inr (Or.inr (Or.inr fun since hsince => hopening since ?_))
          rw [hopenFrom, ← hsince]
          exact Hub.change_openSince.symm.trans (if_pos hattached).symm
      · exact absurd (hattached.symm.trans hbefore) (by decide)
  · exact h.hear_early hwire (Bool.not_eq_true _ ▸ hattached) (hprompt.resolve_left hattached)

theorem Kept.attach (h : l.Kept) (hbefore : l.attached = false) : l.attach.Kept := by
  have hclosed : l.hub.openSince = none := h.unattached hbefore
  have hopenFrom : l.openFrom = l.openedAt := if_neg (by rw [hbefore]; exact Bool.false_ne_true)
  cases hearly : l.openedAt with
  | none =>
    have heq : l.attach = { l with attached := true, hub := l.hub.drop l.now } := by
      rw [Layer.attach, hearly]
    rw [heq]
    refine ⟨⟨h.steady.sound.drop, h.steady.reads⟩, fun e he hlive place id hlog hfrom => ?_,
      fun _ => rfl, h.once, fun hno => by cases hno⟩
    refine (h.caught e he hlive hlog hfrom).imp_right (Or.imp_right fun _ => ?_)
    exact Or.inr (Or.inr fun since hsince => by cases hsince)
  | some since =>
    have heq : l.attach = { l with
        attached := true
        hub := (l.hub.drop l.now).openAt l.now l.log.length since } := by
      rw [Layer.attach, hearly]
    rw [heq]
    have hfeeds := @Hub.openAt_feeds α ε (l.hub.drop l.now) l.now l.log.length _ since rfl
    refine ⟨⟨h.steady.sound.drop.openAt, h.steady.reads⟩, fun e he hlive place id hlog hfrom => ?_,
      fun hframe => ?_, h.once, fun hno => by cases hno⟩
    · have hdropped : Hub.Feeds (l.hub.moment l.now l.log.length)
          (fun e _ => l.hub.reopening = true ∨ e.readAt ≤ since) l.hub
          ((l.hub.drop l.now).openAt l.now l.log.length since) :=
        hfeeds.of_back rfl fun _ _ hhas => hhas
      refine h.caught_after hdropped rfl (fun e he id helse => ?_) he hlive hlog hfrom
      rcases helse with hframe | hdown | hopening
      · exact Or.inr (Or.inl hframe)
      · exact Or.inr (Or.inr (Or.inl hdown))
      · exact Or.inl (Or.inr (hopening since (hopenFrom.trans hearly)).2)
    · have hnone := h.opened hframe
      rw [hopenFrom, hearly] at hnone
      cases hnone

omit [DecidableEq α] in
/-- A change that the read of a registered query misses is caught up with, or has yet to reach the
hub. -/
theorem entry_brings {shareAs : Option Text} {read : Option (Nat × Nat)}
    (hprompt : ∀ r ∈ read, ∀ since, l.openFrom = some since →
      r.1 ≤ since ∨ ∀ id ∈ l.log.drop r.2, Frame.change id ∈ l.wire)
    {id : α} {place : Nat} (hlog : l.log[place]? = some id)
    (hfrom : (l.hub.entry l.now l.log.length shareAs read).readFrom ≤ place) :
    (∃ s ∈ l.hub.openSince, ∃ r ∈ read, r.1 ≤ s) ∨
      l.Elsewhere (l.hub.entry l.now l.log.length shareAs read).readAt id := by
  rcases Option.eq_none_or_eq_some read with hread | ⟨r, hread⟩
  · have hplace : place < l.log.length := (List.getElem?_eq_some_iff.mp hlog).1
    rw [hread] at hfrom
    exact absurd hplace (Nat.not_lt.mpr hfrom)
  · rcases Option.eq_none_or_eq_some l.openFrom with hopened | ⟨since, hopened⟩
    · refine Or.inr (Or.inr (Or.inr fun since hs => ?_))
      cases hopened.symm.trans hs
    · rcases hprompt r hread since hopened with hbefore | hunheard
      · by_cases hattached : l.attached = true
        · have hhub : l.hub.openSince = some since := by
            rw [← hopened]
            exact (if_pos hattached).symm
          exact Or.inl ⟨since, hhub, r, hread, hbefore⟩
        · refine Or.inr (Or.inr (Or.inr fun s hs => ?_))
          cases hopened.symm.trans hs
          refine ⟨Bool.not_eq_true _ ▸ hattached, ?_⟩
          rw [Hub.entry, hread]
          exact hbefore
      · have hlate : r.2 ≤ place := by
          rw [Hub.entry, hread] at hfrom
          exact hfrom
        have hafter : id ∈ l.log.drop r.2 := by
          rw [List.mem_iff_getElem?]
          refine ⟨place - r.2, ?_⟩
          rw [List.getElem?_drop, Nat.add_sub_cancel' hlate]
          exact hlog
        exact Or.inr (Or.inl (hunheard id hafter))

theorem Kept.register (h : l.Kept) {shareAs : Option Text} {read : Option (Nat × Nat)}
    {registrations : List Registration} (hreads : ∀ r ∈ read, r ∈ l.reads)
    (hprompt : ∀ r ∈ read, ∀ since, l.openFrom = some since →
      r.1 ≤ since ∨ ∀ id ∈ l.log.drop r.2, Frame.change id ∈ l.wire) :
    Kept { l with
      hub := (l.hub.register l.now l.log.length shareAs read).1, registrations := registrations } := by
  have hsound := @Hub.Sound.register α ε l.hub l.now l.log.length _ h.steady.sound shareAs read
    fun r hr => h.steady.reads r (hreads r hr)
  unfold Hub.register at hsound ⊢
  split at hsound
  next shared hshared =>
    exact h.with_hub hsound (@Hub.share_feeds α ε l.hub l.moment shared.key) rfl rfl
  next =>
    have hopen : (l.hub.enter l.now l.log.length shareAs read).openSince = l.hub.openSince :=
      Hub.enter_openSince
    have hsince : ({ l with
        hub := l.hub.enter l.now l.log.length shareAs read, registrations := registrations } :
          Layer α ε).openFrom = l.openFrom := by
      unfold openFrom
      dsimp only
      rw [hopen]
    refine ⟨⟨hsound, h.steady.reads⟩, fun e' he' hlive place id hlog hfrom => ?_,
      fun hframe => hsince.trans (h.opened hframe), h.once,
      fun hbefore => hopen.trans (h.unattached hbefore)⟩
    have hplace : place < l.log.length := (List.getElem?_eq_some_iff.mp hlog).1
    obtain ⟨e, he, hserved, hfed⟩ := Hub.enter_feeds e' he'
    have helsewhere : l.Elsewhere e.readAt id →
        ({ l with
          hub := l.hub.enter l.now l.log.length shareAs read, registrations := registrations } :
            Layer α ε).Elsewhere e'.readAt id := by
      intro helse
      rw [hserved.readAt]
      exact helse.imp_right (Or.imp_right fun hopening since hs =>
        hopening since (hsince.symm.trans hs))
    rcases List.mem_append.mp he with hold | hnew
    · have hmounted := hserved.query.mounted hlive
      rcases h.caught e hold hmounted hlog (hserved.readFrom ▸ hfrom) with hhas | hheld | helse
      · exact (hfed hlive hplace (Or.inr (Or.inl hhas))).imp_right Or.inl
      · exact (hfed hlive hplace (Or.inr (Or.inr hheld))).imp_right Or.inl
      · exact Or.inr (Or.inr (helsewhere helse))
    · obtain rfl := List.mem_singleton.mp hnew
      rcases entry_brings hprompt hlog (hserved.readFrom ▸ hfrom) with hbrings | helse
      · exact (hfed hlive hplace (Or.inl ⟨rfl, hbrings⟩)).imp_right Or.inl
      · exact Or.inr (Or.inr (helsewhere helse))

theorem Kept.step (h : l.Kept) (hprompt : l.Prompt event) (hstep : l.step event = some l') :
    l'.Kept := by
  have hsteady := h.steady.step hstep
  cases step_does hstep with
  | tick | prefetch => exact h.of_hub hsteady rfl rfl (fun _ _ => id) h.opened h.once id
  | commit => exact h.commit _
  | connect hclosed => exact h.connect hclosed
  | cut => exact h.cut _
  | drop =>
    refine h.ends hsteady.sound fun hbefore => ?_
    rw [if_neg (by rw [hbefore]; exact Bool.false_ne_true)]
    exact h.unattached hbefore
  | hear hwire => exact h.hear hwire hprompt
  | attach hbefore => exact h.attach hbefore
  | register hreads =>
    refine h.register hreads fun r hr => ?_
    cases hr
    exact hprompt
  | disposed => exact h
  | @dispose _ r =>
    exact h.with_hub hsteady.sound (@Hub.leave_feeds α ε l.hub l.moment r.key r.shareAs) rfl rfl
  | hide =>
    exact h.with_hub hsteady.sound (@Hub.hide_feeds α ε l.hub l.now l.moment) rfl Hub.hide_openSince
  | back => exact h.with_hub hsteady.sound Hub.showTab_feeds rfl Hub.showTab_openSince
  | online =>
    refine h.with_hub hsteady.sound (m := l.moment) ?_ rfl Hub.recover_openSince
    exact Hub.recover_feeds.of_back rfl fun _ _ hhas => hhas.imp_left False.elim
  | stop => exact h.ends hsteady.sound fun _ => rfl
  | windowEnds => exact h.with_hub hsteady.sound Hub.windowFires_feeds rfl Hub.deliver_openSince
  | pauseEnds =>
    refine h.with_hub hsteady.sound (m := l.moment) ?_ rfl rfl
    exact Hub.feeds_of_entries rfl fun _ _ _ _ hhas => hhas.resolve_left id
  | serve hserved => exact h.serve hserved

end Kept

section Hidden

variable {α ε : Type} {l l' : Layer α ε} {event : Event α ε} {trace : List (Event α ε)}
  {m : Moment} {hub : Hub α ε} {brings : Entry α ε → α → Prop}

/-- The tab stays hidden, and every update under way was under way before. -/
def Rests (before after : Hub α ε) : Prop :=
  after.hidden = true ∧ ∀ e' ∈ after.entries, ∀ call, e'.query.running = some call →
    ∃ e ∈ before.entries, e.key = e'.key ∧ e.query.running = some call

theorem rests_of_entries (hhidden : l.hub.hidden = true) (hsame : hub.hidden = l.hub.hidden)
    (hentries : hub.entries = l.hub.entries) : Rests l.hub hub := by
  refine ⟨hsame.trans hhidden, fun e he call hcall => ?_⟩
  rw [hentries] at he
  exact ⟨e, he, rfl, hcall⟩

theorem rests_of_feeds (hhidden : l.hub.hidden = true) (hfeeds : Hub.Feeds l.moment brings l.hub hub)
    (hsame : hub.hidden = l.hub.hidden) : Rests l.hub hub := by
  refine ⟨hsame.trans hhidden, fun e' he' call hcall => hfeeds.quiet ?_ he' hcall⟩
  show (!l.hub.hidden) = false
  rw [hhidden]
  rfl

theorem rests_serve (hhidden : l.hub.hidden = true) {key : Nat}
    {method : LiveQuery α ε → LiveQuery α ε}
    (hmethod : ∀ q, LiveQuery.Served l.moment q (method q)) :
    Rests l.hub (l.serve key method).hub :=
  rests_of_feeds hhidden (Hub.serve_feeds fun e _ _ => hmethod e.query) rfl

variable [DecidableEq α]

theorem rests_openAt (hhidden : l.hub.hidden = true) {dropped : Hub α ε} {since : Nat}
    (hentries : dropped.entries = l.hub.entries) (hsame : dropped.hidden = l.hub.hidden) :
    Rests l.hub (dropped.openAt l.now l.log.length since) := by
  refine ⟨Hub.openAt_hidden.trans (hsame.trans hhidden), fun e' he' call hcall => ?_⟩
  cases hopen : dropped.openSince with
  | some _ =>
    rw [Hub.openAt, hopen] at he'
    exact ⟨e', hentries ▸ he', rfl, hcall⟩
  | none =>
    have hquiet := (Hub.openAt_feeds hopen).quiet (m := dropped.moment l.now l.log.length)
      (by rw [Hub.moment, hsame, hhidden]; rfl) he' hcall
    rwa [hentries] at hquiet

theorem rests_register (hhidden : l.hub.hidden = true) {shareAs : Option Text}
    {read : Option (Nat × Nat)} :
    Rests l.hub (l.hub.register l.now l.log.length shareAs read).1 := by
  unfold Hub.register
  split
  next shared _ => exact rests_of_feeds hhidden Hub.share_feeds rfl
  next =>
    refine ⟨Hub.enter_hidden.trans hhidden, fun e' he' call hcall => ?_⟩
    obtain ⟨e, he, hkey, hrunning⟩ := Hub.enter_feeds.quiet (by
      rw [Hub.moment, hhidden]
      rfl) he' hcall
    rcases List.mem_append.mp he with hold | hnew
    · exact ⟨e, hold, hkey, hrunning⟩
    · obtain rfl := List.mem_singleton.mp hnew
      cases hrunning

theorem rests_hear (hhidden : l.hub.hidden = true) {frame : Frame α} {wire : List (Frame α)} :
    Rests l.hub (({ l with wire := wire } : Layer α ε).hear frame).hub := by
  cases frame with
  | opened =>
    rw [Layer.hear]
    split
    next => exact rests_openAt hhidden rfl rfl
    next => exact rests_of_entries hhidden rfl rfl
  | change id =>
    rw [Layer.hear]
    split
    next => exact rests_of_feeds hhidden Hub.change_feeds Hub.change_hidden
    next => exact rests_of_entries hhidden rfl rfl

theorem step_rests (hhidden : l.hub.hidden = true) (hback : event ≠ .back)
    (hstep : l.step event = some l') : Rests l.hub l'.hub := by
  cases step_does hstep with
  | tick | commit | connect | cut | prefetch | disposed | stop | pauseEnds =>
    exact rests_of_entries hhidden rfl rfl
  | drop =>
    dsimp only
    split <;> exact rests_of_entries hhidden rfl rfl
  | hear => exact rests_hear hhidden
  | attach =>
    unfold Layer.attach
    dsimp only
    split
    next => exact rests_of_entries hhidden rfl rfl
    next => exact rests_openAt hhidden rfl rfl
  | register => exact rests_register hhidden
  | dispose => exact rests_of_feeds hhidden Hub.leave_feeds rfl
  | hide =>
    dsimp only
    rw [Hub.hide, if_pos hhidden]
    exact rests_of_entries hhidden rfl rfl
  | back => exact absurd rfl hback
  | online => exact rests_of_feeds hhidden Hub.recover_feeds Hub.recover_hidden
  | windowEnds => exact rests_of_feeds hhidden Hub.windowFires_feeds Hub.windowFires_hidden
  | serve hserved => exact rests_serve hhidden hserved

/-- No update starts in a hidden tab: until it is shown again, those under way were under way when it
was hidden. -/
theorem run_rests (hhidden : l.hub.hidden = true) (hback : ∀ event ∈ trace, event ≠ .back)
    (hrun : Trace.run step l trace = some l') : Rests l.hub l'.hub := by
  refine Trace.run_keeps (I := fun _ l' => Rests l.hub l'.hub)
    (rests_of_entries hhidden rfl rfl) ?_ hback hrun
  intro _ between event after hbefore hevent hstep
  obtain ⟨hstill, hlast⟩ := step_rests hbefore.1 hevent hstep
  refine ⟨hstill, fun e' he' call hcall => ?_⟩
  obtain ⟨e, he, hkey, hrunning⟩ := hlast e' he' call hcall
  obtain ⟨e₀, he₀, hkey₀, hrunning₀⟩ := hbefore.2 e he call hrunning
  exact ⟨e₀, he₀, hkey₀.trans hkey, hrunning₀⟩

/-- A page that is hidden while its first update is under way. -/
def awayTab : List (Event Nat Unit) :=
  [.connect, .hear, .register none none, .attach, .commit 7, .hear, .tick 1000, .windowEnds, .hide]

/-- The update fails and its retry comes due, a change is heard, and the network is back. -/
def whileHidden : List (Event Nat Unit) :=
  [.settle 0 (.failed ()), .commit 8, .hear, .tick 31000, .retryEnds 0, .online]

theorem run_rests_whileHidden : ∃ l l', Trace.run step {} awayTab = some l ∧
    Trace.run step l whileHidden = some l' ∧ Rests l.hub l'.hub := by
  have hcheck : (Trace.run step {} awayTab).any (fun l => l.hub.hidden &&
      (Trace.run step l whileHidden).isSome) = true := by
    decide
  have hback : ∀ event ∈ whileHidden, event ≠ .back := by
    intro event hevent hback
    rw [hback] at hevent
    simp [whileHidden] at hevent
  obtain ⟨l, haway, hl⟩ := (Option.any_eq_true _ _).mp hcheck
  obtain ⟨hhidden, hsome⟩ := (Bool.and_eq_true _ _).mp hl
  obtain ⟨l', hrun⟩ := Option.isSome_iff_exists.mp hsome
  exact ⟨l, l', haway, hrun, run_rests hhidden hback hrun⟩

end Hidden

section Counted

/-- The registrations that got the query and are not disposed. -/
def holders (registrations : List Registration) (key : Nat) : Nat :=
  registrations.countP fun r => !r.left && decide (r.key = key)

/-- The hub's count of users is the number of registrations that are not disposed, and a query is
mounted while it has one. -/
structure Counted (shares : List Share) (registrations : List Registration) : Prop where
  keys : shares.map Share.key = List.range shares.length
  users : ∀ s ∈ shares, s.users = holders registrations s.key
  mounted : ∀ s ∈ shares, s.mounted = decide (0 < s.users)
  named : ∀ s ∈ shares, ∀ s' ∈ shares, s.mounted = true → s'.mounted = true →
    ∀ name, s.shareAs = some name → s'.shareAs = some name → s.key = s'.key
  registered : ∀ r ∈ registrations, ∃ s ∈ shares, s.key = r.key ∧ s.shareAs = r.shareAs

variable {shares : List Share} {registrations : List Registration} {s s' : Share}

theorem holders_append {r : Registration} {key : Nat} (hopen : r.left = false) :
    holders (registrations ++ [r]) key = holders registrations key + if r.key = key then 1 else 0 := by
  rw [holders, List.countP_append, holders, List.countP_singleton]
  simp [hopen]

theorem holders_set {r : Registration} {i key : Nat} (hr : registrations[i]? = some r)
    (hopen : r.left = false) : holders (registrations.set i { r with left := true }) key =
      holders registrations key - if r.key = key then 1 else 0 := by
  obtain ⟨hi, rfl⟩ := List.getElem?_eq_some_iff.mp hr
  rw [holders, List.countP_set hi, holders]
  simp [hopen]

namespace Counted

theorem initial : Counted [] [] where
  keys := rfl
  users _ hs := absurd hs List.not_mem_nil
  mounted _ hs := absurd hs List.not_mem_nil
  named _ hs := absurd hs List.not_mem_nil
  registered _ hr := absurd hr List.not_mem_nil

theorem eq_of_key (h : Counted shares registrations) (hs : s ∈ shares) (hs' : s' ∈ shares)
    (hkey : s.key = s'.key) : s = s' := by
  have hnodup : (shares.map Share.key).Nodup := by
    rw [h.keys]
    exact List.nodup_range
  exact List.inj_on_of_nodup_map hnodup hs hs' hkey

theorem key_lt (h : Counted shares registrations) (hs : s ∈ shares) : s.key < shares.length := by
  have hmem := List.mem_map_of_mem (f := Share.key) hs
  rw [h.keys] at hmem
  exact List.mem_range.mp hmem

theorem keys_map (h : Counted shares registrations) {change : Share → Share}
    (hkeeps : ∀ s : Share, s.Keeps (change s)) :
    (shares.map change).map Share.key = List.range (shares.map change).length := by
  rw [List.map_map, List.length_map, ← h.keys]
  exact List.map_congr_left fun s _ => (hkeeps s).key

theorem named_map (h : Counted shares registrations) {change : Share → Share}
    (hkeeps : ∀ s : Share, s.Keeps (change s)) : ∀ s ∈ shares.map change, ∀ s' ∈ shares.map change,
      s.mounted = true → s'.mounted = true →
        ∀ name, s.shareAs = some name → s'.shareAs = some name → s.key = s'.key := by
  intro _ hmem _ hmem' hlive hlive' name hname hname'
  obtain ⟨s, hs, rfl⟩ := List.mem_map.mp hmem
  obtain ⟨s', hs', rfl⟩ := List.mem_map.mp hmem'
  rw [(hkeeps s).key, (hkeeps s').key]
  exact h.named s hs s' hs' ((hkeeps s).mounted hlive) ((hkeeps s').mounted hlive') name
    ((hkeeps s).shareAs.symm.trans hname) ((hkeeps s').shareAs.symm.trans hname')

theorem registered_map {change : Share → Share} {r : Registration}
    (hkeeps : ∀ s : Share, s.Keeps (change s))
    (hr : ∃ s ∈ shares, s.key = r.key ∧ s.shareAs = r.shareAs) :
    ∃ s ∈ shares.map change, s.key = r.key ∧ s.shareAs = r.shareAs := by
  obtain ⟨s, hs, hkey, hname⟩ := hr
  exact ⟨_, List.mem_map_of_mem hs, (hkeeps s).key.trans hkey, (hkeeps s).shareAs.trans hname⟩

theorem join (h : Counted shares registrations) (hs : s ∈ shares) (hmounted : s.mounted = true) :
    Counted (shares.map fun s' => if s'.key = s.key then s'.join else s')
      (registrations ++ [⟨s.key, s.shareAs, false⟩]) where
  keys := h.keys_map (Share.keeps_ite @Share.keeps_join)
  users := by
    intro _ hmem
    obtain ⟨s', hs', rfl⟩ := List.mem_map.mp hmem
    rw [holders_append rfl]
    split
    next hkey =>
      rw [if_pos (show s.key = s'.join.key from hkey.symm)]
      exact congrArg (· + 1) (h.users s' hs')
    next hkey =>
      rw [if_neg fun hsame => hkey hsame.symm]
      exact h.users s' hs'
  mounted := by
    intro _ hmem
    obtain ⟨s', hs', rfl⟩ := List.mem_map.mp hmem
    split
    next hkey =>
      rw [h.eq_of_key hs' hs hkey]
      exact hmounted.trans (decide_eq_true (Nat.succ_pos _)).symm
    next => exact h.mounted s' hs'
  named := h.named_map (Share.keeps_ite @Share.keeps_join)
  registered := by
    intro r hr
    refine registered_map (Share.keeps_ite @Share.keeps_join) ?_
    rcases List.mem_append.mp hr with hold | hnew
    · exact h.registered r hold
    · obtain rfl := List.mem_singleton.mp hnew
      exact ⟨s, hs, rfl, rfl⟩

theorem enter (h : Counted shares registrations) {shareAs : Option Text}
    (hfresh : ∀ name, shareAs = some name → ∀ s ∈ shares, s.mounted = true → s.shareAs ≠ some name) :
    Counted (shares ++ [⟨shares.length, shareAs, 1, true⟩])
      (registrations ++ [⟨shares.length, shareAs, false⟩]) where
  keys := by
    rw [List.map_append, h.keys, List.length_append, List.length_singleton, List.range_succ]
    rfl
  users := by
    intro s hmem
    rw [holders_append rfl]
    rcases List.mem_append.mp hmem with hs | hnew
    · rw [if_neg fun hsame => (h.key_lt hs).ne hsame.symm]
      exact h.users s hs
    · obtain rfl := List.mem_singleton.mp hnew
      have hnone : holders registrations shares.length = 0 := by
        refine List.countP_eq_zero.mpr fun r hr => ?_
        obtain ⟨s, hs, hkey, _⟩ := h.registered r hr
        have hlt := h.key_lt hs
        rw [hkey] at hlt
        simp [hlt.ne]
      rw [if_pos rfl, hnone]
  mounted := by
    intro s hmem
    rcases List.mem_append.mp hmem with hs | hnew
    · exact h.mounted s hs
    · obtain rfl := List.mem_singleton.mp hnew
      rfl
  named := by
    intro s hmem s' hmem' hlive hlive' name hname hname'
    rcases List.mem_append.mp hmem with hs | hnew <;> rcases List.mem_append.mp hmem' with hs' | hnew'
    · exact h.named s hs s' hs' hlive hlive' name hname hname'
    · obtain rfl := List.mem_singleton.mp hnew'
      exact absurd hname (hfresh name hname' s hs hlive)
    · obtain rfl := List.mem_singleton.mp hnew
      exact absurd hname' (hfresh name hname s' hs' hlive')
    · rw [List.mem_singleton.mp hnew, List.mem_singleton.mp hnew']
  registered := by
    intro r hr
    rcases List.mem_append.mp hr with hold | hnew
    · obtain ⟨s, hs, hsame⟩ := h.registered r hold
      exact ⟨s, List.mem_append_left _ hs, hsame⟩
    · obtain rfl := List.mem_singleton.mp hnew
      exact ⟨_, List.mem_append_right _ (List.mem_singleton_self _), rfl, rfl⟩

/-- A registration that is not disposed is with the query that it got, and no other. -/
theorem isWith_iff (h : Counted shares registrations) {r : Registration} (hr : r ∈ registrations)
    (hopen : r.left = false) (hs : s ∈ shares) :
    s.isWith r.key r.shareAs = true ↔ s.key = r.key := by
  obtain ⟨got, hgot, hkey, hname⟩ := h.registered r hr
  have hmounted : got.mounted = true := by
    rw [h.mounted got hgot, h.users got hgot]
    refine decide_eq_true (List.countP_pos_iff.mpr ⟨r, hr, ?_⟩)
    rw [hopen, hkey]
    exact decide_eq_true rfl
  cases hshare : r.shareAs with
  | none => exact decide_eq_true_iff
  | some name =>
    rw [hshare] at hname
    rw [Share.isWith, Share.sharing, Bool.and_eq_true, decide_eq_true_iff]
    refine ⟨fun hwith => ?_, fun hsame => ?_⟩
    · exact (h.named s hs got hgot hwith.1 hmounted name hwith.2 hname).trans hkey
    · rw [h.eq_of_key hs hgot (hsame.trans hkey.symm)]
      exact ⟨hmounted, hname⟩

theorem leave (h : Counted shares registrations) {r : Registration} {i : Nat}
    (hr : registrations[i]? = some r) (hopen : r.left = false) :
    Counted (shares.map fun s => if s.isWith r.key r.shareAs then s.leave else s)
      (registrations.set i { r with left := true }) where
  keys := h.keys_map (Share.keeps_ite @Share.keeps_leave)
  users := by
    intro _ hmem
    obtain ⟨s, hs, rfl⟩ := List.mem_map.mp hmem
    have hwith := h.isWith_iff (List.mem_of_getElem? hr) hopen hs
    rw [holders_set hr hopen]
    split
    next hleft =>
      rw [if_pos (show r.key = s.leave.key from (hwith.mp hleft).symm)]
      exact congrArg (· - 1) (h.users s hs)
    next hother =>
      rw [if_neg fun hsame => hother (hwith.mpr hsame.symm)]
      exact h.users s hs
  mounted := by
    intro _ hmem
    obtain ⟨s, hs, rfl⟩ := List.mem_map.mp hmem
    split
    next =>
      rw [Share.leave, h.mounted s hs, ← Bool.decide_and]
      dsimp only
      exact decide_eq_decide.mpr (by omega)
    next => exact h.mounted s hs
  named := h.named_map (Share.keeps_ite @Share.keeps_leave)
  registered := by
    intro r' hr'
    refine registered_map (Share.keeps_ite @Share.keeps_leave) ?_
    rcases List.mem_or_eq_of_mem_set hr' with hold | rfl
    · exact h.registered r' hold
    · exact h.registered r (List.mem_of_getElem? hr)

end Counted

variable {α ε : Type} {l l' : Layer α ε} {event : Event α ε}

theorem serve_shares {key : Nat} {method : LiveQuery α ε → LiveQuery α ε}
    (hmethod : ∀ q, (method q).disposed = q.disposed) :
    (l.serve key method).hub.shares = l.hub.shares :=
  Hub.serve_shares fun e _ => hmethod e.query

variable [DecidableEq α]

theorem hear_shares {frame : Frame α} : (l.hear frame).hub.shares = l.hub.shares := by
  cases frame with
  | opened =>
    rw [Layer.hear]
    split
    next => exact Hub.openAt_shares
    next => rfl
  | change id =>
    rw [Layer.hear]
    split
    next => exact Hub.change_shares
    next => rfl

theorem hear_registrations {frame : Frame α} : (l.hear frame).registrations = l.registrations := by
  cases frame <;> rw [Layer.hear] <;> split <;> rfl

theorem attach_shares : l.attach.hub.shares = l.hub.shares := by
  unfold Layer.attach
  dsimp only
  split
  next => rfl
  next => exact Hub.openAt_shares

theorem Counted.register (h : Counted l.hub.shares registrations) {shareAs : Option Text}
    {read : Option (Nat × Nat)} :
    Counted (l.hub.register l.now l.log.length shareAs read).1.shares (registrations ++
      [⟨(l.hub.register l.now l.log.length shareAs read).2, shareAs, false⟩]) := by
  unfold Hub.register
  split
  next shared hshared =>
    obtain ⟨name, hname, hfound⟩ := Option.bind_eq_some_iff.mp hshared
    have hsharing := List.find?_some hfound
    rw [Hub.sharing, Bool.and_eq_true, decide_eq_true_iff] at hsharing
    dsimp only
    rw [Hub.share_shares, hname, ← hsharing.2]
    exact h.join (s := shared.share) (List.mem_map_of_mem (List.mem_of_find?_eq_some hfound)) hsharing.1
  next hnone =>
    have hlength : l.hub.entries.length = l.hub.shares.length := (List.length_map _).symm
    dsimp only
    rw [Hub.enter_shares, hlength]
    refine h.enter fun name hname s hs hlive hsame => ?_
    obtain ⟨e, he, rfl⟩ := List.mem_map.mp hs
    rw [hname, Option.bind_some] at hnone
    refine List.find?_eq_none.mp hnone e he ?_
    exact Bool.and_eq_true_iff.mpr ⟨hlive, decide_eq_true hsame⟩

theorem Counted.step (h : Counted l.hub.shares l.registrations) (hstep : l.step event = some l') :
    Counted l'.hub.shares l'.registrations := by
  cases step_does hstep with
  | tick | commit | connect | cut | prefetch | disposed | stop | pauseEnds => exact h
  | drop =>
    dsimp only
    split <;> exact h
  | hear =>
    rw [hear_shares, hear_registrations]
    exact h
  | attach =>
    rw [attach_shares]
    exact h
  | register => exact h.register
  | dispose hr hopen =>
    dsimp only
    rw [Hub.leave_shares]
    exact h.leave hr hopen
  | hide =>
    dsimp only
    unfold Hub.hide
    split <;> exact h
  | back =>
    dsimp only
    rw [Hub.showTab_shares]
    exact h
  | online =>
    dsimp only
    rw [Hub.online, Hub.recover_shares]
    exact h
  | windowEnds =>
    dsimp only
    rw [Hub.windowFires_shares]
    exact h
  | serve _ hdisposed =>
    rw [serve_shares hdisposed]
    exact h

end Counted

section Runs

variable {α ε : Type} [DecidableEq α] {l : Layer α ε} {trace : List (Event α ε)}

/-- The stream is open with no frame on its way, the hub holds nothing, and the query has no update
to start, to end or to try again, and no work put off. -/
def Settled (l : Layer α ε) (e : Entry α ε) : Prop :=
  (l.listening = true ∧ l.attached = true ∧ l.openFrom.isSome = true ∧ l.wire = []) ∧
    (l.hub.batcher.ids = ∅ ∧ l.hub.gapWaiting = false) ∧
      e.query.waiting.ids = ∅ ∧ e.query.waiting.gap = false ∧ e.query.running = none ∧
        e.query.retry = none ∧ e.query.later = none

/-- No change that a mounted query may have missed is lost, whatever the stream, the tab and the
updates do; and once all is settled, an update that began after the change brought it. -/
theorem caught_of_run (hprompt : Trace.Along step Prompt {} trace)
    (hrun : Trace.run step {} trace = some l) {e : Entry α ε} (he : e ∈ l.hub.entries)
    (hmounted : e.query.disposed = false) {id : α} {place : Nat} (hlog : l.log[place]? = some id)
    (hmissed : e.readFrom ≤ place) :
    l.Caught e id place ∧
      (l.Settled e → ∃ call ∈ e.query.applied, call.Covers id place) := by
  have hkept : l.Kept :=
    Trace.run_keeps_along (I := fun _ => Kept) kept_initial
      (fun h hprompt hstep => h.step hprompt hstep) hprompt hrun
  have hcaught := hkept.caught e he hmounted hlog hmissed
  refine ⟨hcaught, ?_⟩
  rintro ⟨⟨hlistening, hattached, hopen, hwire⟩, ⟨hids, hgap⟩, hqueued, hgapQueued, hrunning, hretry, _⟩
  rcases hcaught with (⟨hbrings | ⟨retry, hsome, _⟩⟩ | ⟨call, hcall, _⟩ | happlied) |
    (hcollected | hwaiting) | hframe | hdown | hopening
  · rw [Batch.Brings, hqueued, hgapQueued] at hbrings
    simp at hbrings
  · rw [hretry] at hsome
    cases hsome
  · rw [hrunning] at hcall
    cases hcall
  · exact happlied
  · rw [hids] at hcollected
    simp at hcollected
  · rw [hgap] at hwaiting
    cases hwaiting
  · rw [hwire] at hframe
    cases hframe
  · rw [hlistening] at hdown
    cases hdown
  · obtain ⟨since, hsince⟩ := Option.isSome_iff_exists.mp hopen
    rw [(hopening since hsince).1] at hattached
    cases hattached

instance decidablePrompt (l : Layer α ε) (event : Event α ε) : Decidable (l.Prompt event) := by
  unfold Prompt
  split <;> infer_instance

instance decidableSettled (l : Layer α ε) (e : Entry α ε) : Decidable (l.Settled e) := by
  unfold Settled
  infer_instance

/-- A page whose stream is cut while an update is tried again: the change that the stream lost is
brought once it opens again. -/
def cutStream : List (Event Nat Unit) :=
  [.connect, .hear, .tick 5, .register none none, .attach, .commit 7, .hear, .tick 1000, .windowEnds,
    .settle 0 (.failed ()), .tick 1000, .retryEnds 0, .cut 0, .commit 9, .settle 0 .finished, .drop,
    .connect, .hear, .settle 0 .finished]

theorem caught_of_cutStream : ∃ l e, Trace.run step {} cutStream = some l ∧ e ∈ l.hub.entries ∧
    l.log[1]? = some 9 ∧ ∃ call ∈ e.query.applied, call.Covers 9 1 := by
  have hprompt : Trace.Along step Prompt {} cutStream := by decide
  have hcheck : (Trace.run step {} cutStream).any (fun l => decide (l.log[1]? = some 9) &&
      l.hub.entries.any fun e => !e.query.disposed && decide (e.readFrom ≤ 1) &&
        decide (l.Settled e)) = true := by
    decide
  obtain ⟨l, hrun, hl⟩ := (Option.any_eq_true _ _).mp hcheck
  rw [Bool.and_eq_true, List.any_eq_true] at hl
  obtain ⟨hlog, e, he, hsettled⟩ := hl
  simp only [Bool.and_eq_true, Bool.not_eq_true', decide_eq_true_eq] at hlog hsettled
  exact ⟨l, e, hrun, he, hlog,
    (caught_of_run hprompt hrun he hsettled.1.1 hlog hsettled.1.2).2 hsettled.2⟩

/-- A read begun after the stream opened is taken by a view once a change written since is heard and
dropped: nothing catches the view up. -/
def lateRead : List (Event Nat Unit) :=
  [.connect, .hear, .tick 5, .prefetch, .tick 5, .commit 7, .hear, .tick 5,
    .register none (some (5, 0)), .attach]

example : (Trace.run step {} lateRead).any (fun l => decide (l.log = [7]) &&
    l.hub.entries.any fun e => !e.query.disposed && decide (e.readFrom = 0) &&
      decide (l.Settled e) && decide (e.query.applied.length = 0)) = true := by
  decide

/-- Whatever happens, nothing that waits waits on nothing, and a query has heard of failures just when
it has failed three times. -/
theorem sound_of_run (hrun : Trace.run step {} trace = some l) : l.hub.Sound l.now :=
  (Trace.run_keeps_from steady_initial (fun h hstep => h.step hstep) hrun).sound

theorem sound_of_cutStream : ∃ l, Trace.run step {} cutStream = some l ∧ l.hub.Sound l.now := by
  have hsome : (Trace.run step {} cutStream).isSome = true := by decide
  obtain ⟨l, hrun⟩ := Option.isSome_iff_exists.mp hsome
  exact ⟨l, hrun, sound_of_run hrun⟩

/-- A query is kept current as long as one of the registrations that got it is not disposed, and no
longer; each registration has its query, and no two mounted queries share a name. -/
theorem mounted_iff_of_run (hrun : Trace.run step {} trace = some l) :
    (∀ e ∈ l.hub.entries,
      e.query.disposed = false ↔ ∃ r ∈ l.registrations, r.key = e.key ∧ r.left = false) ∧
    (∀ r ∈ l.registrations, ∃ e ∈ l.hub.entries, e.key = r.key ∧ e.shareAs = r.shareAs) ∧
    ∀ e ∈ l.hub.entries, ∀ e' ∈ l.hub.entries, e.query.disposed = false →
      e'.query.disposed = false → ∀ name, e.shareAs = some name → e'.shareAs = some name →
        e.key = e'.key := by
  have hcounted : Counted l.hub.shares l.registrations :=
    Trace.run_keeps_from (I := fun l => Counted l.hub.shares l.registrations) Counted.initial
      (fun h hstep => h.step hstep) hrun
  have hshare : ∀ e ∈ l.hub.entries, e.share ∈ l.hub.shares := fun e he => List.mem_map_of_mem he
  refine ⟨fun e he => ?_, fun r hr => ?_, fun e he e' he' hlive hlive' => ?_⟩
  · have hmounted : (!e.query.disposed) = decide (0 < e.users) := hcounted.mounted e.share (hshare e he)
    have husers : e.users = holders l.registrations e.key := hcounted.users e.share (hshare e he)
    rw [← Bool.not_eq_true', hmounted, husers, decide_eq_true_iff, holders, List.countP_pos_iff]
    simp only [Bool.and_eq_true, Bool.not_eq_true', decide_eq_true_eq, and_comm]
  · obtain ⟨s, hs, hkey, hname⟩ := hcounted.registered r hr
    obtain ⟨e, he, rfl⟩ := List.mem_map.mp hs
    exact ⟨e, he, hkey, hname⟩
  · exact hcounted.named e.share (hshare e he) e'.share (hshare e' he')
      ((Bool.not_eq_true' _).mpr hlive) ((Bool.not_eq_true' _).mpr hlive')

/-- Two views of one inquiry, of which the first is disposed twice. -/
def twoViews : List (Event Nat Unit) :=
  [.register (some ['i']) none, .register (some ['i']) none, .dispose 0, .dispose 0]

theorem mounted_iff_of_twoViews : ∃ l e, Trace.run step {} twoViews = some l ∧ e ∈ l.hub.entries ∧
    e.query.disposed = false := by
  have hcheck : (Trace.run step {} twoViews).any (fun l => l.hub.entries.any fun e =>
      l.registrations.any fun r => decide (r.key = e.key) && !r.left) = true := by
    decide
  obtain ⟨l, hrun, hl⟩ := (Option.any_eq_true _ _).mp hcheck
  obtain ⟨e, he, hr⟩ := List.any_eq_true.mp hl
  obtain ⟨r, hr, hopen⟩ := List.any_eq_true.mp hr
  rw [Bool.and_eq_true, decide_eq_true_iff, Bool.not_eq_true'] at hopen
  exact ⟨l, e, hrun, he, ((mounted_iff_of_run hrun).1 e he).mpr ⟨r, hr, hopen⟩⟩

end Runs

end Layer

end Trackinizer.Live
