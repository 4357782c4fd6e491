import Trackinizer.TerminalStartup

namespace Trackinizer.Typing

open Interleave

@[simp] theorem inputs_nil : inputs [] = [] := rfl

theorem inputs_append (xs ys : List ToHost) : inputs (xs ++ ys) = inputs xs ++ inputs ys :=
  List.flatMap_append

theorem kept_snoc (log : List Entry) (entry : Entry) :
    kept (log ++ [entry]) = kept log ++ if entry.omitted then [] else entry.bytes := by
  simp [kept]

/-- The typing the current host has, what is under way to it and what is buffered are what was
kept, in order; before a host starts all of it is buffered, and the lock is free. -/
structure Flow (s : Startup) (got : Bytes) : Prop where
  order : got ++ s.unsent = kept s.log
  idle : s.unstarted = true → s.holder = none ∧ s.waiting = [] ∧ got = []
  target : ∀ sending, s.holder = some sending → s.host = some sending.host

section Jobs

variable {s : Startup} {got : Bytes} {host : Nat}

theorem Startup.unsent_free (h : s.holder = none) : s.unsent = s.preInput := by
  simp [Startup.unsent, h]

theorem unstarted_of_host (hhost : s.host = some host) (hstarting : s.starting = false) :
    s.unstarted = false := by
  simp [Startup.unstarted, hhost, hstarting]

theorem host_of_started (h : s.unstarted = false) :
    ∃ host, s.host = some host ∧ s.starting = false := by
  cases hhost : s.host with
  | none => simp [Startup.unstarted, hhost] at h
  | some host => exact ⟨host, rfl, by simpa [Startup.unstarted, hhost] using h⟩

/-- Sends begin, with the lock, to a host that has started. -/
theorem flow_sendOn (hended : s.ended = false) (hhost : s.host = some host)
    (hstarting : s.starting = false) {frames : List ToHost}
    (horder : got ++ (inputs frames ++ s.preInput) = kept s.log) : Flow (s.sendOn frames) got := by
  have hstarted := unstarted_of_host hhost hstarting
  cases frames with
  | nil =>
    have hsend : s.sendOn [] = { s with holder := none } := by
      simp [Startup.sendOn, hended, hhost]
    rw [hsend]
    refine ⟨horder, ?_, ?_⟩
    · intro hunstarted
      exact absurd (hunstarted.symm.trans hstarted) (by simp)
    · intro sending hsending
      cases hsending
  | cons frame rest =>
    have hsend : s.sendOn (frame :: rest) = { s with holder := some ⟨host, frame, rest⟩ } := by
      simp [Startup.sendOn, hended, hhost]
    rw [hsend]
    refine ⟨horder, ?_, ?_⟩
    · intro hunstarted
      exact absurd (hunstarted.symm.trans hstarted) (by simp)
    · intro sending hsending
      cases hsending
      exact hhost

theorem Flow.startHost (h : Flow s got) (hended : s.ended = false) (hfree : s.holder = none)
    (hhost : s.host = some host) : Flow s.startHost got := by
  have horder := h.order
  rw [Startup.unsent_free hfree] at horder
  rw [Startup.startHost]
  apply flow_sendOn
  · exact hended
  · exact hhost
  · rfl
  rw [← horder]
  congr 1
  cases s.preResize with
  | none =>
    by_cases hnone : s.preInput = []
    · simp [hnone]
    · simp [hnone, inputs]
  | some size =>
    by_cases hnone : s.preInput = []
    · simp [hnone, inputs]
    · simp [hnone, inputs]

theorem forward_unstarted (h : s.unstarted = true) (bytes : Bytes) :
    s.forward (.input bytes) =
      if s.preInput.length + bytes.length ≤ maxInputFrameBytes then
        { s with preInput := s.preInput ++ bytes }
      else s := by
  simp [Startup.forward, h]

theorem forward_started (h : s.unstarted = false) (frame : ToHost) :
    s.forward frame = s.sendOn [frame] := by
  simp [Startup.forward, h]

/-- Frames that carry no typing leave the flow as it is. -/
theorem Flow.forward (h : Flow s got) (hended : s.ended = false) (hfree : s.holder = none)
    {frame : ToHost} (hnone : inputs [frame] = []) (hkind : ∀ bytes, frame ≠ .input bytes) :
    Flow (s.forward frame) got := by
  unfold Startup.forward
  split
  next =>
    cases frame with
    | input bytes => exact absurd rfl (hkind bytes)
    | ack => exact h
    | resize size => exact ⟨h.order, h.idle, h.target⟩
    | other bytes => exact h
  next hstarted =>
    obtain ⟨host, hhost, hstarting⟩ := host_of_started (by simpa using hstarted)
    refine flow_sendOn hended hhost hstarting ?_
    have horder := h.order
    rw [Startup.unsent_free hfree] at horder
    rw [hnone, List.nil_append, horder]

/-- An input frame with the lock is kept in its place: it is buffered, or no buffered typing is
left for it to overtake. -/
theorem Flow.input (h : Flow s got) (hended : s.ended = false) (hfree : s.holder = none)
    {bytes : Bytes} (hflushed : s.unstarted = false → s.preInput = [] ∨ bytes = []) :
    Flow (s.runJob (.forward (.input bytes))) got := by
  have horder := h.order
  rw [Startup.unsent_free hfree] at horder
  have hsame : (s.note (.forward (.input bytes))).unstarted = s.unstarted := rfl
  have hlog : (s.note (.forward (.input bytes))).log =
      s.log ++ [Entry.mk bytes s.unstarted s.preInput.length] := rfl
  change Flow ((s.note (.forward (.input bytes))).forward (.input bytes)) got
  cases hunstarted : s.unstarted with
  | true =>
    obtain ⟨_, hwaiting, hgot⟩ := h.idle hunstarted
    rw [forward_unstarted (hsame.trans hunstarted)]
    split
    next hfits =>
      have hfits : s.preInput.length + bytes.length ≤ maxInputFrameBytes := hfits
      refine ⟨?_, fun _ => ⟨hfree, hwaiting, hgot⟩, h.target⟩
      rw [Startup.unsent_free (by exact hfree)]
      change got ++ (s.preInput ++ bytes) = kept _
      rw [hlog, kept_snoc, ← horder]
      have hkept : ¬ maxInputFrameBytes < s.preInput.length + bytes.length := by omega
      simp [Entry.omitted, hkept]
    next hlong =>
      have hlong : ¬ s.preInput.length + bytes.length ≤ maxInputFrameBytes := hlong
      refine ⟨?_, fun _ => ⟨hfree, hwaiting, hgot⟩, h.target⟩
      rw [Startup.unsent_free (by exact hfree)]
      change got ++ s.preInput = kept _
      rw [hlog, kept_snoc, ← horder]
      have hleft : maxInputFrameBytes < s.preInput.length + bytes.length := by omega
      simp [Entry.omitted, hunstarted, hleft]
  | false =>
    obtain ⟨host, hhost, hstarting⟩ := host_of_started hunstarted
    rw [forward_started (hsame.trans hunstarted)]
    apply flow_sendOn
    · exact hended
    · exact hhost
    · exact hstarting
    change got ++ (_ ++ s.preInput) = kept _
    rw [hlog, kept_snoc, ← horder]
    rcases hflushed hunstarted with hnone | rfl
    · simp [Entry.omitted, hunstarted, hnone, inputs]
    · simp [inputs]

/-- The job at the head of the queue is about to take the lock. -/
theorem Flow.dequeue (h : Flow s got) {job : Job} {rest : List Job}
    (hwaiting : s.waiting = job :: rest) :
    s.unstarted = false ∧ Flow { s with waiting := rest } got := by
  have hstarted : s.unstarted = false := by
    by_contra hne
    have hnone := (h.idle (by simpa using hne)).2.1
    rw [hwaiting] at hnone
    cases hnone
  refine ⟨hstarted, h.order, ?_, h.target⟩
  intro hunstarted
  exact absurd (hunstarted.symm.trans hstarted) (by simp)

/-- A job queues behind others. -/
theorem Flow.enqueue (h : Flow s got) (hbusy : s.free = false) (job : Job) :
    Flow { s with waiting := s.waiting ++ [job] } got := by
  refine ⟨h.order, ?_, h.target⟩
  intro hunstarted
  obtain ⟨hholder, hwaiting, _⟩ := h.idle hunstarted
  simp [Startup.free, hholder, hwaiting] at hbusy

theorem holder_of_free (h : s.free = true) : s.holder = none ∧ s.waiting = [] := by
  simpa [Startup.free] using h

theorem Flow.arriveStart (h : Flow s got) (hended : s.ended = false)
    (hhost : s.host = some host) : Flow (s.arrive .start) got := by
  rw [Startup.arrive]
  split
  next hfree => exact h.startHost hended (holder_of_free hfree).1 hhost
  next hbusy => exact h.enqueue (by simpa using hbusy) _

theorem Flow.arrive (h : Flow s got) (hended : s.ended = false) {frame : ToHost}
    (hnone : inputs [frame] = []) (hkind : ∀ bytes, frame ≠ .input bytes) :
    Flow (s.arrive (.forward frame)) got := by
  rw [Startup.arrive]
  split
  next hfree =>
    have hnote : s.note (.forward frame) = s := by
      cases frame with
      | input bytes => exact absurd rfl (hkind bytes)
      | ack => rfl
      | resize size => rfl
      | other bytes => rfl
    rw [Startup.runJob, hnote]
    exact h.forward hended (holder_of_free hfree).1 hnone hkind
  next hbusy => exact h.enqueue (by simpa using hbusy) _

theorem Flow.arriveInput (h : Flow s got) (hended : s.ended = false) {bytes : Bytes}
    (hflushed : s.free = true → s.unstarted = false → s.preInput = [] ∨ bytes = []) :
    Flow (s.arrive (.forward (.input bytes))) got := by
  rw [Startup.arrive]
  split
  next hfree => exact h.input hended (holder_of_free hfree).1 (hflushed hfree)
  next hbusy => exact h.enqueue (by simpa using hbusy) _

end Jobs

section Seen

variable {s : Startup}

/-- The sends of a job touch nothing but the lock. -/
theorem sendOn_eq (frames : List ToHost) :
    ∃ holder, s.sendOn frames = { s with holder := holder } := by
  unfold Startup.sendOn
  split
  · exact ⟨_, rfl⟩
  · split
    · exact ⟨_, rfl⟩
    · exact ⟨_, rfl⟩

/-- A job with the lock notes its typing, and may find the host started. -/
theorem runJob_spec (job : Job) : ∃ buffered size holder starting log,
    s.runJob job = { s with
      preInput := buffered, preResize := size, holder := holder, starting := starting, log := log } ∧
    log.map Entry.bytes = s.log.map Entry.bytes ++ job.typing ∧
    (job ≠ .start → starting = s.starting) ∧ (job = .start → starting = false) := by
  cases job with
  | start =>
    obtain ⟨holder, hsend⟩ := sendOn_eq (s := { s with
        starting := false, preResize := none, preInput := [] })
      (s.preResize.toList.map ToHost.resize ++
        if s.preInput = [] then [] else [ToHost.input s.preInput])
    refine ⟨[], none, holder, false, s.log, hsend, ?_, fun hne => absurd rfl hne, fun _ => rfl⟩
    simp [Job.typing]
  | forward frame =>
    have hnote : ∃ log, s.note (.forward frame) = { s with log := log } ∧
        log.map Entry.bytes = s.log.map Entry.bytes ++ (Job.forward frame).typing := by
      cases frame with
      | input bytes => exact ⟨_, rfl, by simp [Job.typing]⟩
      | ack => exact ⟨s.log, rfl, by simp [Job.typing]⟩
      | resize size => exact ⟨s.log, rfl, by simp [Job.typing]⟩
      | other bytes => exact ⟨s.log, rfl, by simp [Job.typing]⟩
    obtain ⟨log, hnote, hlog⟩ := hnote
    have hforward : ∃ buffered size holder, (s.note (.forward frame)).forward frame = { s with
        preInput := buffered, preResize := size, holder := holder, log := log } := by
      rw [hnote]
      unfold Startup.forward
      split
      next =>
        cases frame with
        | input bytes =>
          simp only
          split
          · exact ⟨_, _, _, rfl⟩
          · exact ⟨_, _, _, rfl⟩
        | ack => exact ⟨_, _, _, rfl⟩
        | resize size => exact ⟨_, _, _, rfl⟩
        | other bytes => exact ⟨_, _, _, rfl⟩
      next =>
        obtain ⟨holder, hsend⟩ := sendOn_eq (s := { s with log := log }) [frame]
        exact ⟨_, _, holder, hsend⟩
    obtain ⟨buffered, size, holder, hforward⟩ := hforward
    exact ⟨buffered, size, holder, s.starting, log, hforward, hlog, fun _ => rfl,
      fun heq => by cases heq⟩

/-- What comes to the lock is seen once, after all that came before. -/
theorem arrive_seen {job : Job} (h : s.delayed = none ∨ job.typing = []) :
    (s.arrive job).seen = s.seen ++ job.typing := by
  rw [Startup.arrive]
  split
  next hfree =>
    obtain ⟨_, hwaiting⟩ := holder_of_free hfree
    obtain ⟨_, _, _, _, log, hrun, hlog, _⟩ := runJob_spec (s := s) job
    rw [hrun, Startup.seen, Startup.seen]
    simp only [hlog, hwaiting, List.flatMap_nil, List.append_nil]
    rcases h with hnone | hnone
    · simp [hnone]
    · simp [hnone]
  next =>
    rw [Startup.seen, Startup.seen]
    simp only [List.flatMap_append, List.flatMap_singleton]
    rcases h with hnone | hnone
    · simp [hnone]
    · simp [hnone]

theorem dequeue_seen {job : Job} {rest : List Job} (h : s.waiting = job :: rest) :
    (({ s with waiting := rest }).runJob job).seen = s.seen := by
  obtain ⟨_, _, _, _, log, hrun, hlog, _⟩ := runJob_spec (s := { s with waiting := rest }) job
  rw [hrun, Startup.seen, Startup.seen]
  simp only [hlog, h, List.flatMap_cons, List.append_assoc]

end Seen

/-- The typing the terminal's host has received. -/
def Terminal.got (term : Terminal) : Bytes :=
  match term.store.host.bind term.phase with
  | some leg => inputs leg.received
  | none => []

/-- Who claims the terminal: a host whose claim is not confirmed is starting, and one without
the acknowledgement holds the terminal while it closes the one before. -/
structure Claims (term : Terminal) : Prop where
  known : ∀ h, term.store.host = some h → ∃ leg, term.phase h = some leg
  unready : ∀ h leg previous, term.phase h = some leg → leg.task = .closing previous false →
    term.store.host = some h ∧ term.store.starting = false
  ready : ∀ h leg, term.store.host = some h → term.phase h = some leg →
    (leg.task = .acking ∨ ∃ previous, leg.task = .closing previous true) →
    term.store.starting = true

structure TypingInv (came : List Bytes) (term : Terminal) : Prop where
  seen : term.store.seen = came
  flow : term.store.ended = false → Flow term.store term.got
  claims : term.store.ended = false → Claims term

@[simp] theorem withStore_store (term : Terminal) (s : Startup) :
    (term.withStore s).store = s := rfl

@[simp] theorem withStore_phase (term : Terminal) (s : Startup) :
    (term.withStore s).phase = term.phase := rfl

@[simp] theorem setHost_store (term : Terminal) (h : Nat) (leg : HostLeg) :
    (term.setHost h leg).store = term.store := rfl

@[simp] theorem setHost_self (term : Terminal) (h : Nat) (leg : HostLeg) :
    (term.setHost h leg).phase h = some leg :=
  World.move_phase_self

theorem setHost_of_ne (term : Terminal) {h k : Nat} (leg : HostLeg) (hne : k ≠ h) :
    (term.setHost h leg).phase k = term.phase k :=
  World.move_phase_of_ne hne

theorem typingInv_start : TypingInv [] .start := by
  refine ⟨rfl, fun _ => ⟨rfl, fun _ => ⟨rfl, rfl, rfl⟩, ?_⟩, fun _ => ⟨?_, ?_, ?_⟩⟩
  all_goals simp [Terminal.start]

section Parts

variable {term : Terminal} {came : List Bytes}

theorem got_host {h : Nat} {leg : HostLeg} (hhost : term.store.host = some h)
    (hleg : term.phase h = some leg) : term.got = inputs leg.received := by
  simp [Terminal.got, hhost, hleg]

/-- A host's step that brings it no typing. -/
theorem got_setHost {h : Nat} {leg leg' : HostLeg} (hleg : term.phase h = some leg)
    (hsame : inputs leg'.received = inputs leg.received) : (term.setHost h leg').got = term.got := by
  cases hhost : term.store.host with
  | none => simp [Terminal.got, hhost]
  | some k =>
    by_cases hkh : k = h
    · subst hkh
      rw [got_host hhost hleg, ← hsame]
      exact got_host hhost (setHost_self ..)
    · simp [Terminal.got, hhost, setHost_of_ne _ _ hkh]

theorem Claims.setHost (hc : Claims term) {h : Nat} {leg leg' : HostLeg}
    (hleg : term.phase h = some leg)
    (hunready : ∀ previous, leg'.task = .closing previous false → leg.task = leg'.task)
    (hready : (leg'.task = .acking ∨ ∃ previous, leg'.task = .closing previous true) →
      leg.task = .acking ∨ ∃ previous, leg.task = .closing previous true) :
    Claims (term.setHost h leg') := by
  have hfind : ∀ k old, (term.setHost h leg').phase k = some old →
      (k = h ∧ old = leg') ∨ (k ≠ h ∧ term.phase k = some old) := by
    intro k old hk
    by_cases hkh : k = h
    · subst hkh
      rw [setHost_self] at hk
      exact .inl ⟨rfl, (Option.some.inj hk).symm⟩
    · rw [setHost_of_ne _ _ hkh] at hk
      exact .inr ⟨hkh, hk⟩
  refine ⟨?_, ?_, ?_⟩
  · intro k hk
    by_cases hkh : k = h
    · subst hkh
      exact ⟨leg', setHost_self ..⟩
    · obtain ⟨old, hold⟩ := hc.known k hk
      exact ⟨old, by rw [setHost_of_ne _ _ hkh, hold]⟩
  · intro k old previous hk htask
    rcases hfind k old hk with ⟨rfl, rfl⟩ | ⟨_, hold⟩
    · exact hc.unready k leg previous hleg ((hunready previous htask).trans htask)
    · exact hc.unready k old previous hold htask
  · intro k old hhost hk htask
    rcases hfind k old hk with ⟨rfl, rfl⟩ | ⟨_, hold⟩
    · exact hc.ready k leg hhost hleg (hready htask)
    · exact hc.ready k old hhost hold htask

/-- The claims stand when a job runs: `start` only runs for a host that is connected. -/
theorem Claims.store (hc : Claims term) {s : Startup} (hhost : s.host = term.store.host)
    (hstarting : s.starting = term.store.starting ∨ s.starting = false ∧
      ∀ h leg, term.store.host = some h → term.phase h = some leg → leg.task = .connected) :
    Claims (term.withStore s) := by
  refine ⟨?_, ?_, ?_⟩
  · intro h hh
    exact hc.known h (hhost ▸ hh)
  · intro h leg previous hleg htask
    obtain ⟨hclaim, hstart⟩ := hc.unready h leg previous hleg htask
    refine ⟨hhost.trans hclaim, ?_⟩
    rcases hstarting with hsame | ⟨hfalse, _⟩
    · exact hsame.trans hstart
    · exact hfalse
  · intro h leg hh hleg htask
    have hclaim : term.store.host = some h := hhost ▸ hh
    rcases hstarting with hsame | ⟨_, hconnected⟩
    · exact hsame.trans (hc.ready h leg hclaim hleg htask)
    · have hdone := hconnected h leg hclaim hleg
      rcases htask with htask | ⟨previous, htask⟩
      · exact absurd (hdone.symm.trans htask) (by simp)
      · exact absurd (hdone.symm.trans htask) (by simp)

theorem arrive_spec (s : Startup) (job : Job) :
    (s.arrive job).host = s.host ∧ (s.arrive job).ended = s.ended ∧
      ((s.arrive job).starting = s.starting ∨
        job = .start ∧ (s.arrive job).starting = false) := by
  rw [Startup.arrive]
  split
  next =>
    obtain ⟨_, _, _, starting, _, hrun, _, hsame, hstart⟩ := runJob_spec (s := s) job
    rw [hrun]
    refine ⟨rfl, rfl, ?_⟩
    by_cases hjob : job = .start
    · exact .inr ⟨hjob, hstart hjob⟩
    · exact .inl (hsame hjob)
  next => exact ⟨rfl, rfl, .inl rfl⟩

theorem got_withStore {s : Startup} (hhost : s.host = term.store.host) :
    (term.withStore s).got = term.got := by
  simp [Terminal.got, hhost]

/-- A job comes to the lock or takes it. -/
theorem TypingInv.store (h : TypingInv came term) {s : Startup} {came' : List Bytes}
    (hseen : s.seen = came') (hhost : s.host = term.store.host)
    (hended : s.ended = term.store.ended)
    (hflow : term.store.ended = false → Flow term.store term.got → Flow s term.got)
    (hstarting : term.store.ended = false →
      s.starting = term.store.starting ∨ s.starting = false ∧
        ∀ h leg, term.store.host = some h → term.phase h = some leg → leg.task = .connected) :
    TypingInv came' (term.withStore s) := by
  refine ⟨hseen, ?_, ?_⟩
  · intro hlive
    have hlive : term.store.ended = false := hended.symm.trans hlive
    rw [got_withStore hhost]
    exact hflow hlive (h.flow hlive)
  · intro hlive
    have hlive : term.store.ended = false := hended.symm.trans hlive
    exact (h.claims hlive).store hhost (hstarting hlive)

theorem TypingInv.arriveFrame (h : TypingInv came term) (frame : ToHost)
    (hnone : inputs [frame] = []) (hkind : ∀ bytes, frame ≠ .input bytes) :
    TypingInv came (term.withStore (term.store.arrive (.forward frame))) := by
  obtain ⟨hhost, hended, hstarting⟩ := arrive_spec term.store (.forward frame)
  have htyping : (Job.forward frame).typing = [] := by
    cases frame with
    | input bytes => exact absurd rfl (hkind bytes)
    | ack => rfl
    | resize size => rfl
    | other bytes => rfl
  refine h.store ?_ hhost hended (fun hlive hflow => hflow.arrive hlive hnone hkind) ?_
  · rw [arrive_seen (.inr htyping), htyping, List.append_nil, h.seen]
  · intro _
    exact .inl (hstarting.resolve_right fun heq => by cases heq.1)

theorem TypingInv.arriveInput (h : TypingInv came term) (hdelayed : term.store.delayed = none)
    {bytes : Bytes}
    (hflushed : term.store.ended = false → term.store.free = true →
      term.store.unstarted = false → term.store.preInput = [] ∨ bytes = []) :
    TypingInv (came ++ [bytes]) (term.withStore (term.store.arrive (.forward (.input bytes)))) := by
  obtain ⟨hhost, hended, hstarting⟩ := arrive_spec term.store (.forward (.input bytes))
  refine h.store ?_ hhost hended (fun hlive hflow => hflow.arriveInput hlive (hflushed hlive)) ?_
  · rw [arrive_seen (.inl hdelayed), h.seen]
    rfl
  · intro _
    exact .inl (hstarting.resolve_right fun heq => by cases heq.1)

/-- `_start_host` is due for a host that is through with its claim. -/
theorem TypingInv.arriveStart (h : TypingInv came term) {host : Nat} {leg : HostLeg}
    (hhost : term.store.ended = false → term.store.host = some host)
    (hleg : term.phase host = some leg) (htask : leg.task = .connected) :
    TypingInv came (term.withStore (term.store.arrive .start)) := by
  obtain ⟨hsame, hended, hstarting⟩ := arrive_spec term.store .start
  refine h.store ?_ hsame hended ?_ ?_
  · rw [arrive_seen (.inr rfl), h.seen]
    simp [Job.typing]
  · intro hlive hflow
    exact hflow.arriveStart hlive (hhost hlive)
  · intro hlive
    refine hstarting.imp_right fun hstart => ⟨hstart.2, ?_⟩
    intro k old hk hold
    obtain rfl : host = k := Option.some.inj ((hhost hlive).symm.trans hk)
    obtain rfl : leg = old := Option.some.inj (hleg.symm.trans hold)
    exact htask

/-- The job that has waited longest takes the lock. -/
theorem TypingInv.acquire (h : TypingInv came term) {job : Job} {rest : List Job}
    (hfree : term.store.holder = none) (hwaiting : term.store.waiting = job :: rest)
    (hflushed : term.store.ended = false → ∀ bytes, job = .forward (.input bytes) →
      term.store.unstarted = false → term.store.preInput = [] ∨ bytes = []) :
    TypingInv came (term.withStore ({ term.store with waiting := rest }.runJob job)) := by
  obtain ⟨_, _, _, starting, _, hrun, _, hsame, hstart⟩ :=
    runJob_spec (s := { term.store with waiting := rest }) job
  have hflow : term.store.ended = false → Flow term.store term.got →
      Flow ({ term.store with waiting := rest }.runJob job) term.got := by
    intro hlive hflow
    obtain ⟨hstarted, hrest⟩ := hflow.dequeue hwaiting
    obtain ⟨host, hhost, _⟩ := host_of_started hstarted
    cases job with
    | start => exact hrest.startHost hlive hfree hhost
    | forward frame =>
      cases frame with
      | input bytes =>
        exact hrest.input hlive hfree (fun _ => hflushed hlive bytes rfl hstarted)
      | ack => exact hrest.forward hlive hfree rfl (by simp)
      | resize size => exact hrest.forward hlive hfree rfl (by simp)
      | other bytes => exact hrest.forward hlive hfree rfl (by simp)
  refine h.store ?_ (by rw [hrun]) (by rw [hrun]) hflow ?_
  · rw [dequeue_seen hwaiting, h.seen]
  · intro hlive
    obtain ⟨hstarted, _⟩ := (h.flow hlive).dequeue hwaiting
    obtain ⟨_, _, hstarting⟩ := host_of_started hstarted
    left
    rw [hrun]
    by_cases hjob : job = .start
    · exact (hstart hjob).trans hstarting.symm
    · exact hsame hjob

theorem TypingInv.finish (h : TypingInv came term) :
    TypingInv came (term.withStore term.store.finish) := by
  refine ⟨h.seen, ?_, ?_⟩
  · intro hlive
    simp [Startup.finish] at hlive
  · intro hlive
    simp [Startup.finish] at hlive

/-- A host's step that brings it no typing and leaves its claim as it is. -/
theorem TypingInv.setHost (h : TypingInv came term) {k : Nat} {leg leg' : HostLeg}
    (hleg : term.phase k = some leg) (hsame : inputs leg'.received = inputs leg.received)
    (hunready : ∀ previous, leg'.task = .closing previous false → leg.task = leg'.task)
    (hready : (leg'.task = .acking ∨ ∃ previous, leg'.task = .closing previous true) →
      leg.task = .acking ∨ ∃ previous, leg.task = .closing previous true) :
    TypingInv came (term.setHost k leg') := by
  refine ⟨h.seen, ?_, fun hlive => (h.claims hlive).setHost hleg hunready hready⟩
  intro hlive
  rw [got_setHost hleg hsame]
  exact h.flow hlive

theorem TypingInv.sent (h : TypingInv came term) {sending : Sending} {leg : HostLeg}
    (hholder : term.store.holder = some sending) (hleg : term.phase sending.host = some leg) :
    TypingInv came (term.sent sending leg) := by
  rw [Terminal.sent]
  split
  next =>
    obtain ⟨holder, hsend⟩ := sendOn_eq (s := term.store.finish) sending.rest
    rw [hsend]
    refine ⟨h.seen, ?_, ?_⟩
    · intro hlive
      simp [Startup.finish] at hlive
    · intro hlive
      simp [Startup.finish] at hlive
  next =>
    obtain ⟨holder, hsend⟩ := sendOn_eq (s := term.store) sending.rest
    refine ⟨?_, ?_, ?_⟩
    · rw [withStore_store, hsend]
      exact h.seen
    · intro hlive
      rw [withStore_store, hsend] at hlive
      have hflow := h.flow hlive
      have hhost := hflow.target sending hholder
      have hstarted : term.store.unstarted = false := by
        by_contra hne
        have hnone := (hflow.idle (by simpa using hne)).1
        exact absurd (hholder.symm.trans hnone) (by simp)
      obtain ⟨_, _, hstarting⟩ := host_of_started hstarted
      have hsame : (term.store.sendOn sending.rest).host = term.store.host := by rw [hsend]
      have hgot : ((term.setHost sending.host
          { leg with received := leg.received ++ [sending.frame] }).withStore
            (term.store.sendOn sending.rest)).got = term.got ++ inputs [sending.frame] := by
        rw [got_withStore (by exact hsame), got_host (by exact hhost) (setHost_self ..),
          got_host hhost hleg, inputs_append]
      rw [hgot]
      refine flow_sendOn hlive hhost hstarting ?_
      have horder := hflow.order
      rw [Startup.unsent, hholder] at horder
      rw [← horder]
      simp [inputs]
    · intro hlive
      rw [withStore_store, hsend] at hlive
      have hset : Claims (term.setHost sending.host
          { leg with received := leg.received ++ [sending.frame] }) :=
        (h.claims hlive).setHost hleg (fun _ _ => rfl) id
      exact hset.store (by rw [hsend]; rfl) (.inl (by rw [hsend]; rfl))

/-- A starting host gives the terminal up. -/
theorem TypingInv.release (h : TypingInv came term) {host : Nat}
    (hhost : term.store.host = some host) (hstarting : term.store.starting = true) :
    TypingInv came (term.withStore { term.store with host := none, starting := false }) := by
  have hunstarted : term.store.unstarted = true := by
    simp [Startup.unstarted, hhost, hstarting]
  refine ⟨h.seen, ?_, ?_⟩
  · intro hlive
    have hflow := h.flow hlive
    obtain ⟨hholder, hwaiting, hgot⟩ := hflow.idle hunstarted
    have horder := hflow.order
    rw [hgot] at horder
    refine ⟨horder, fun _ => ⟨hholder, hwaiting, rfl⟩, ?_⟩
    intro sending hsending
    exact absurd (hholder.symm.trans hsending) (by simp)
  · intro hlive
    refine ⟨?_, ?_, ?_⟩
    · intro k hk
      cases hk
    · intro k leg previous hk htask
      have hfalse := ((h.claims hlive).unready k leg previous hk htask).2
      exact absurd (hstarting.symm.trans hfalse) (by simp)
    · intro k leg hk
      cases hk

/-- A host that dials in claims a terminal that has not started. -/
theorem TypingInv.claim (h : TypingInv came term) {host : Nat} (hfresh : term.phase host = none)
    (hlive : term.store.ended = false) (hunstarted : term.store.unstarted = true) {ready : Bool}
    {leg : HostLeg} (hreceived : leg.received = [])
    (hunready : ∀ previous, leg.task = .closing previous false → ready = false)
    (hready : (leg.task = .acking ∨ ∃ previous, leg.task = .closing previous true) →
      ready = true) :
    TypingInv came (term.write host { term.store with host := some host, starting := ready }
      (some leg)) := by
  have hflow := h.flow hlive
  obtain ⟨hholder, hwaiting, hgot⟩ := hflow.idle hunstarted
  have horder := hflow.order
  rw [hgot] at horder
  have hnone : Terminal.got (term.write host
      { term.store with host := some host, starting := ready } (some leg)) = [] := by
    simp [Terminal.got, hreceived]
  refine ⟨h.seen, ?_, ?_⟩
  · intro _
    rw [hnone]
    refine ⟨horder, fun _ => ⟨hholder, hwaiting, rfl⟩, ?_⟩
    intro sending hsending
    exact absurd (hholder.symm.trans hsending) (by simp)
  · intro _
    refine ⟨?_, ?_, ?_⟩
    · intro k hk
      cases hk
      exact ⟨leg, World.write_phase_self⟩
    · intro k old previous hk htask
      by_cases hkh : k = host
      · subst hkh
        rw [World.write_phase_self] at hk
        cases hk
        exact ⟨rfl, hunready previous htask⟩
      · rw [World.write_phase_of_ne hkh] at hk
        obtain ⟨hclaim, hstart⟩ := (h.claims hlive).unready k old previous hk htask
        have hstarted := unstarted_of_host hclaim hstart
        exact absurd (hunstarted.symm.trans hstarted) (by simp)
    · intro k old hk hold htask
      cases hk
      rw [World.write_phase_self] at hold
      cases hold
      exact hready htask

theorem TypingInv.dial (h : TypingInv came term) {host : Nat} (hfresh : term.phase host = none)
    (ready : Bool) : TypingInv came (term.dial host ready) := by
  rw [Terminal.dial]
  split
  next =>
    have hother : ∀ k old, term.phase k = some old → k ≠ host := by
      rintro k old hk rfl
      simp [hfresh] at hk
    refine ⟨h.seen, ?_, ?_⟩
    · intro hlive
      have hgot : (term.setHost host { task := .refused }).got = term.got := by
        cases hhost : term.store.host with
        | none => simp [Terminal.got, hhost]
        | some k =>
          obtain ⟨old, hold⟩ := (h.claims hlive).known k hhost
          simp [Terminal.got, hhost, setHost_of_ne _ _ (hother k old hold)]
      rw [hgot]
      exact h.flow hlive
    · intro hlive
      obtain ⟨hknown, hunready, hready⟩ := h.claims hlive
      refine ⟨?_, ?_, ?_⟩
      · intro k hk
        obtain ⟨old, hold⟩ := hknown k hk
        exact ⟨old, by rw [setHost_of_ne _ _ (hother k old hold), hold]⟩
      · intro k old previous hk htask
        by_cases hkh : k = host
        · subst hkh
          rw [setHost_self] at hk
          cases hk
          cases htask
        · rw [setHost_of_ne _ _ hkh] at hk
          exact hunready k old previous hk htask
      · intro k old hk hold htask
        obtain ⟨real, hreal⟩ := hknown k hk
        rw [setHost_of_ne _ _ (hother k real hreal)] at hold
        exact hready k old hk hold htask
  next hopen =>
    have hlive : term.store.ended = false := by
      by_contra hne
      simp_all
    have hunstarted : term.store.unstarted = true := by
      by_contra hne
      simp_all
    simp only
    split
    next previous _ =>
      refine h.claim hfresh hlive hunstarted rfl ?_ ?_
      · intro other htask
        cases htask
        rfl
      · rintro (htask | ⟨other, htask⟩)
        · cases htask
        · cases htask
          rfl
    next =>
      refine h.claim hfresh hlive hunstarted rfl ?_ (fun _ => rfl)
      intro other htask
      cases htask
    next =>
      have hclaim : TypingInv came (term.write host
          { term.store with host := some host, starting := false }
          (some { task := .connected })) := by
        refine h.claim hfresh hlive hunstarted rfl ?_ ?_
        · intro other htask
          cases htask
        · rintro (htask | ⟨other, htask⟩)
          · cases htask
          · cases htask
      exact hclaim.arriveStart (fun _ => rfl) World.write_phase_self rfl

theorem TypingInv.closed (h : TypingInv came term) {host previous : Nat} {ready : Bool}
    {leg : HostLeg} (hleg : term.phase host = some leg)
    (htask : leg.task = .closing previous ready) :
    TypingInv came (term.closed host previous ready leg) := by
  have hgone : ∃ term' leg', TypingInv came term' ∧ term'.store = term.store ∧
      term'.phase host = some leg' ∧ leg'.task = leg.task ∧ leg'.received = leg.received ∧
      term.closed host previous ready leg =
        (if ready then term'.setHost host { leg with task := .acking }
        else (term'.setHost host { leg with task := .connected }).withStore
          (term'.store.arrive .start)) := by
    cases hprevious : term.phase previous with
    | none => exact ⟨term, leg, h, rfl, hleg, rfl, rfl, by simp [Terminal.closed, hprevious]⟩
    | some old =>
      have hset : TypingInv came (term.setHost previous { old with gone := true }) :=
        h.setHost hprevious rfl (fun _ _ => rfl) id
      by_cases hself : host = previous
      · subst hself
        obtain rfl : leg = old := Option.some.inj (hleg.symm.trans hprevious)
        exact ⟨_, _, hset, rfl, setHost_self .., rfl, rfl, by simp [Terminal.closed, hprevious]⟩
      · exact ⟨_, leg, hset, rfl, by rw [setHost_of_ne _ _ hself, hleg], rfl, rfl,
          by simp [Terminal.closed, hprevious]⟩
  obtain ⟨term', leg', hinv, hstore, hleg', htask', hreceived, heq⟩ := hgone
  rw [heq]
  cases ready with
  | true =>
    refine hinv.setHost hleg' (congrArg inputs hreceived.symm) ?_ ?_
    · intro other hother
      cases hother
    · intro _
      exact .inr ⟨previous, htask'.trans htask⟩
  | false =>
    have hdone : TypingInv came (term'.setHost host { leg with task := .connected }) := by
      refine hinv.setHost hleg' (congrArg inputs hreceived.symm) ?_ ?_
      · intro other hother
        cases hother
      · rintro (hother | ⟨other, hother⟩)
        · cases hother
        · cases hother
    refine hdone.arriveStart ?_ (setHost_self ..) rfl
    intro hlive
    exact ((hinv.claims hlive).unready host leg' previous hleg' (htask'.trans htask)).1

theorem TypingInv.acked (h : TypingInv came term) {host : Nat} {leg : HostLeg}
    (hleg : term.phase host = some leg) (htask : leg.task = .acking) :
    TypingInv came (term.acked host leg) := by
  have hset : ∀ {leg' : HostLeg}, inputs leg'.received = inputs leg.received →
      leg'.task = .refused ∨ leg'.task = .connected → TypingInv came (term.setHost host leg') := by
    intro leg' hsame hdone
    refine h.setHost hleg hsame ?_ ?_
    · intro previous hclosing
      rcases hdone with hdone | hdone
      · exact absurd (hdone.symm.trans hclosing) (by simp)
      · exact absurd (hdone.symm.trans hclosing) (by simp)
    · intro _
      exact .inl htask
  rw [Terminal.acked]
  split
  next =>
    have hrefused : TypingInv came (term.setHost host { leg with task := .refused }) :=
      hset rfl (.inl rfl)
    split
    next hhost =>
      -- The claim is given up where it was made: this host is the one that is starting.
      by_cases hlive : term.store.ended = false
      · have hstarting := (h.claims hlive).ready host leg hhost hleg (.inl htask)
        exact hrefused.release hhost hstarting
      · refine ⟨h.seen, fun hfalse => absurd hfalse hlive, fun hfalse => absurd hfalse hlive⟩
    next => exact hrefused
  next =>
    refine hset ?_ (.inr rfl)
    rw [inputs_append]
    simp [inputs]

theorem TypingInv.confirm (h : TypingInv came term) {host : Nat} {leg : HostLeg}
    (hleg : term.phase host = some leg) (htask : leg.task = .connected) :
    TypingInv came (term.confirm host) := by
  rw [Terminal.confirm]
  split
  next hclaim =>
    simp only [Bool.and_eq_true, decide_eq_true_eq] at hclaim
    exact h.arriveStart (fun _ => hclaim.1.1) hleg htask
  next => exact h

theorem TypingInv.lost (h : TypingInv came term) (host : Nat) :
    TypingInv came (term.lost host) := by
  simp only [Terminal.lost]
  split
  next hclaim =>
    simp only [Bool.and_eq_true, decide_eq_true_eq] at hclaim
    split
    next hstarting => exact h.release hclaim.1 hstarting
    next => exact h.finish
  next => exact h

end Parts

/-- The input frames a step's browser was let send. -/
theorem typed_snoc (trace : List Act) (act : Act) :
    typed (trace ++ [act]) = typed trace ++ typed [act] :=
  List.filterMap_append

/-- A typed frame is dropped as too long, waits out the rate, or comes to the lock. -/
theorem TypingInv.type {term : Terminal} {came : List Bytes} (h : TypingInv came term)
    {bytes : Bytes} {slow : Bool} (hdelayed : term.store.delayed = none)
    (hflushed : term.store.ended = false →
      ∀ bytes', term.store.taking (.type bytes slow) = some bytes' →
        term.store.unstarted = false → term.store.preInput = [] ∨ bytes' = []) :
    TypingInv (came ++ typed [.type bytes slow]) (term.type bytes slow) := by
  rw [Terminal.type]
  split
  next hlong => simpa [typed, hlong] using h
  next hshort =>
    have htyped : typed [.type bytes slow] = [bytes] := by simp [typed, hshort]
    rw [htyped]
    split
    next =>
      refine h.store ?_ rfl rfl (fun _ hflow => ⟨hflow.order, hflow.idle, hflow.target⟩)
        (fun _ => .inl rfl)
      rw [← h.seen]
      simp [Startup.seen, hdelayed]
    next hquick =>
      refine h.arriveInput hdelayed ?_
      intro hlive hfree
      apply hflushed hlive
      simp only [Startup.taking]
      simp [hshort, hquick, hfree]

/-- The frame that waited out the rate comes to the lock. -/
theorem TypingInv.slept {term : Terminal} {came : List Bytes} (h : TypingInv came term)
    {bytes : Bytes} (hdelayed : term.store.delayed = some bytes)
    (hflushed : term.store.ended = false → ∀ bytes', term.store.taking .slept = some bytes' →
      term.store.unstarted = false → term.store.preInput = [] ∨ bytes' = []) :
    TypingInv came
      (term.withStore ({ term.store with delayed := none }.arrive (.forward (.input bytes)))) := by
  have hbefore : ∃ rest, rest ++ [bytes] = came ∧
      TypingInv rest (term.withStore { term.store with delayed := none }) := by
    refine ⟨_, ?_, h.store rfl rfl rfl
      (fun _ hflow => ⟨hflow.order, hflow.idle, hflow.target⟩) (fun _ => .inl rfl)⟩
    rw [← h.seen]
    simp [Startup.seen, hdelayed]
  obtain ⟨rest, hrest, hinv⟩ := hbefore
  rw [← hrest]
  refine hinv.arriveInput rfl ?_
  intro hlive hfree
  apply hflushed hlive
  have hfree : term.store.free = true := hfree
  simp [Startup.taking, hfree, hdelayed]

theorem TypingInv.quiet {term : Terminal} {came : List Bytes} (h : TypingInv came term)
    {act : Act} (hnone : typed [act] = []) : TypingInv (came ++ typed [act]) term := by
  rw [hnone, List.append_nil]
  exact h

theorem TypingInv.step {term term' : Terminal} {came : List Bytes} (h : TypingInv came term)
    {act : Act} (hkeeps : ¬ term.Overtakes act) (hstep : term.step act = some term') :
    TypingInv (came ++ typed [act]) term' := by
  have hflushed : term.store.ended = false → ∀ bytes, term.store.taking act = some bytes →
      term.store.unstarted = false → term.store.preInput = [] ∨ bytes = [] := by
    intro hlive bytes htaking hstarted
    by_contra hne
    rw [not_or] at hne
    refine hkeeps ⟨hlive, hstarted, hne.1, ?_⟩
    simpa [htaking] using hne.2
  cases Terminal.steps_of_step hstep with
  | type bytes slow hdelayed => exact h.type hdelayed hflushed
  | slept hdelayed => exact TypingInv.quiet (h.slept hdelayed hflushed) rfl
  | resize size => exact TypingInv.quiet (h.arriveFrame (.resize size) rfl (by simp)) rfl
  | other bytes => exact TypingInv.quiet (h.arriveFrame (.other bytes) rfl (by simp)) rfl
  | @acquire job rest hfree hwaiting =>
    refine TypingInv.quiet (h.acquire hfree hwaiting ?_) rfl
    rintro hlive bytes rfl
    apply hflushed hlive
    simp [Startup.taking, hfree, hwaiting]
  | sent hholder hleg => exact TypingInv.quiet (h.sent hholder hleg) rfl
  | dial ready hfresh => exact TypingInv.quiet (h.dial hfresh ready) rfl
  | closed hleg htask => exact TypingInv.quiet (h.closed hleg htask) rfl
  | acked hleg htask => exact TypingInv.quiet (h.acked hleg htask) rfl
  | confirm hleg htask => exact TypingInv.quiet (h.confirm hleg htask) rfl
  | @lost host _ _ _ => exact TypingInv.quiet (h.lost host) rfl
  | gone hleg =>
    refine TypingInv.quiet ?_ rfl
    exact h.setHost hleg rfl (fun _ _ => rfl) id
  | finish => exact TypingInv.quiet h.finish rfl

/-- The frames that took the lock and those that have yet to are the ones typed, in order, and
what the terminal's host has and is still to get is all of them but those left out. -/
structure InOrder (came : List Bytes) (term : Terminal) : Prop where
  came : term.store.seen = came
  received : term.store.ended = false → ∀ host leg, term.store.host = some host →
    term.phase host = some leg → inputs leg.received ++ term.store.unsent = kept term.store.log

/-- Typing stays in order in every run in which none overtakes what is buffered. -/
theorem typing_inOrder {trace : List Act} {term : Terminal}
    (hrun : Trace.run Terminal.step .start trace = some term)
    (hkeeps : Trace.Along Terminal.step (fun term act => ¬ term.Overtakes act) .start trace) :
    InOrder (typed trace) term := by
  have hinv : TypingInv (typed trace) term := by
    refine Trace.run_keeps_along (I := fun trace term => TypingInv (typed trace) term)
      typingInv_start ?_ hkeeps hrun
    intro trace term act term' h hkeeps hstep
    rw [typed_snoc]
    exact h.step hkeeps hstep
  refine ⟨hinv.seen, ?_⟩
  intro hlive host leg hhost hleg
  rw [← got_host hhost hleg]
  exact (hinv.flow hlive).order

/-- A host that is acknowledged and confirms; typing before and after. -/
def confirmed : List Act :=
  [.type [1] false, .dial 0 true, .acked 0, .confirm 0, .type [2] false, .sent, .acquire, .sent]

theorem typing_inOrder_confirmed : ∃ term,
    Trace.run Terminal.step .start confirmed = some term ∧ InOrder (typed confirmed) term := by
  exact ⟨_, rfl, typing_inOrder rfl (by decide)⟩

/-- The first host is starting when one without the acknowledgement takes over: what is typed
while the first is being closed reaches the second before what was buffered. -/
def overtaken : List Act :=
  [.dial 0 true, .acked 0, .type [1] false, .dial 1 false, .type [2] false, .sent, .closed 1, .sent]

theorem typing_overtaken : ∃ term leg, Trace.run Terminal.step .start overtaken = some term ∧
    term.store.ended = false ∧ term.store.host = some 1 ∧ term.phase 1 = some leg ∧
    typed overtaken = [[1], [2]] ∧ inputs leg.received = [2, 1] ∧
    ¬ InOrder (typed overtaken) term := by
  refine ⟨_, _, rfl, rfl, rfl, rfl, rfl, rfl, ?_⟩
  intro h
  have horder := h.received rfl 1 _ rfl rfl
  have hwrong : ([2, 1] : Bytes) = [1, 2] := horder
  simp at hwrong

end Trackinizer.Typing
