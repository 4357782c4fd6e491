import Trackinizer.TerminalLegs

namespace Trackinizer.Terminals

open Interleave Window

/-- Who the hub's references name: the terminal's browser is behind its own replay, and who
waits for a replay waits for one that runs or whose event is set. -/
structure GateInv (term : Terminal) : Prop where
  browser : ∀ b, term.store.browser = some b → ∃ leg, term.phase b = some leg ∧
    (leg.task ≠ .done → term.store.replaying = some b)
  replaying : ∀ b, term.store.replaying = some b → ∃ leg, term.phase b = some leg ∧
    leg.task ≠ .done
  gated : ∀ b frame, term.store.host = .gated b frame → ∃ leg, term.phase b = some leg ∧
    (leg.task ≠ .done ∨ leg.replayed = true)
  sending : ∀ b frame, term.store.host = .sending b frame → ∃ leg, term.phase b = some leg

/-- The relay's frames: the host does not resume from a direct link. -/
def HostFrame.Relayed : HostFrame → Prop
  | .resume _ => False
  | _ => True

/-- The frame `from_host` works on is one of the relay's. -/
def HostTask.Relayed : HostTask → Prop
  | .delayed frame => frame.Relayed
  | .gated _ frame => frame.Relayed
  | _ => True

structure RelayInv (bytes : Bytes) (term : Terminal) : Prop where
  ring : RingInv bytes term.store.ring
  hand : term.store.ended = false → bytes.drop term.store.ring.stop = term.store.host.inHand
  relayed : term.store.host.Relayed
  gate : GateInv term
  legs : ∀ b leg, term.phase b = some leg →
    LegInv bytes term.store.ring.stop (term.store.host.liveTo b) (term.store.browser = some b) leg

theorem relayInv_start (capacity : Nat) : RelayInv [] (.start capacity) := by
  have hring : RingInv [] (Terminal.start capacity).store.ring :=
    ⟨le_refl _, by simp [Terminal.start, List.rtake]⟩
  refine ⟨hring, fun _ => rfl, trivial, ⟨?_, ?_, ?_, ?_⟩, ?_⟩
  all_goals simp [Terminal.start]

section Steps

variable {bytes : Bytes} {term : Terminal}

/-- A browser's state changes in a way that keeps what the hub relies on. -/
theorem GateInv.setLeg (h : GateInv term) {b : Nat} {leg leg' : Leg}
    (hleg : term.phase b = some leg) (hdone : leg'.task ≠ .done ↔ leg.task ≠ .done)
    (hreplayed : leg.replayed = true → leg'.replayed = true) : GateInv (term.setLeg b leg') := by
  have hfind : ∀ c old, term.phase c = some old → ∃ new, (term.setLeg b leg').phase c = some new ∧
      (new.task ≠ .done ↔ old.task ≠ .done) ∧ (old.replayed = true → new.replayed = true) := by
    intro c old hc
    by_cases hcb : c = b
    · subst hcb
      obtain rfl : leg = old := Option.some.inj (hleg.symm.trans hc)
      exact ⟨leg', setLeg_self .., hdone, hreplayed⟩
    · exact ⟨old, by rw [setLeg_of_ne _ _ hcb, hc], Iff.rfl, id⟩
  refine ⟨?_, ?_, ?_, ?_⟩
  · intro c hc
    obtain ⟨old, hold, hgate⟩ := h.browser c hc
    obtain ⟨new, hnew, htask, _⟩ := hfind c old hold
    exact ⟨new, hnew, fun hne => hgate (htask.mp hne)⟩
  · intro c hc
    obtain ⟨old, hold, hgate⟩ := h.replaying c hc
    obtain ⟨new, hnew, htask, _⟩ := hfind c old hold
    exact ⟨new, hnew, htask.mpr hgate⟩
  · intro c frame hc
    obtain ⟨old, hold, hgate⟩ := h.gated c frame hc
    obtain ⟨new, hnew, htask, hset⟩ := hfind c old hold
    exact ⟨new, hnew, hgate.imp htask.mpr hset⟩
  · intro c frame hc
    obtain ⟨old, hold⟩ := h.sending c frame hc
    obtain ⟨new, hnew, _⟩ := hfind c old hold
    exact ⟨new, hnew⟩

/-- A browser that is sent nothing takes a step of its own. -/
theorem RelayInv.setLeg (h : RelayInv bytes term) {b : Nat} {leg leg' : Leg}
    (hleg : term.phase b = some leg) (hdone : leg'.task ≠ .done ↔ leg.task ≠ .done)
    (hreplayed : leg.replayed = true → leg'.replayed = true)
    (hinv : LegInv bytes term.store.ring.stop (term.store.host.liveTo b)
      (term.store.browser = some b) leg') : RelayInv bytes (term.setLeg b leg') := by
  refine ⟨h.ring, h.hand, h.relayed, h.gate.setLeg hleg hdone hreplayed, ?_⟩
  intro c old hc
  by_cases hcb : c = b
  · subst hcb
    rw [setLeg_self] at hc
    cases hc
    exact hinv
  · rw [setLeg_of_ne _ _ hcb] at hc
    exact h.legs c old hc

/-- The browser in a hub that forgets a browser. -/
theorem detach_browser {hub : Hub} {b c : Nat} :
    (hub.detach b).browser = some c ↔ hub.browser = some c ∧ c ≠ b := by
  rw [Hub.detach]
  split
  next heq =>
    constructor
    · intro hnone
      cases hnone
    · rintro ⟨hc, hne⟩
      exact absurd (Option.some.inj (hc.symm.trans heq)) hne
  next hne =>
    constructor
    · intro hc
      refine ⟨hc, ?_⟩
      rintro rfl
      exact hne hc
    · exact fun hc => hc.1

theorem detach_eq (hub : Hub) (b : Nat) :
    ∃ browser, hub.detach b = { hub with browser := browser } := by
  rw [Hub.detach]
  split
  · exact ⟨none, rfl⟩
  · exact ⟨hub.browser, rfl⟩

theorem RelayInv.detach (h : RelayInv bytes term) (b : Nat) :
    RelayInv bytes (term.withHub (term.store.detach b)) := by
  obtain ⟨browser, heq⟩ := detach_eq term.store b
  have hsome : ∀ c, browser = some c → term.store.browser = some c := by
    intro c hc
    have hiff := @detach_browser term.store b c
    rw [heq] at hiff
    exact (hiff.mp hc).1
  rw [heq]
  refine ⟨h.ring, h.hand, h.relayed, ⟨?_, h.gate.replaying, h.gate.gated, h.gate.sending⟩, ?_⟩
  · intro c hc
    exact h.gate.browser c (hsome c hc)
  · intro c leg hc
    exact (h.legs c leg hc).passed (le_refl _) fun hcur _ => ⟨hsome c hcur, rfl⟩

theorem RelayInv.setReplayed (h : RelayInv bytes term) (b : Option Nat) :
    RelayInv bytes (term.setReplayed b) := by
  cases b with
  | none => exact h
  | some b =>
    rw [Terminal.setReplayed]
    split
    next => exact h
    next leg hleg =>
      exact h.setLeg hleg Iff.rfl (fun _ => rfl)
        ((h.legs b leg hleg).turned rfl rfl rfl rfl id id)

theorem setReplayed_store (term : Terminal) (b : Option Nat) :
    (term.setReplayed b).store = term.store := by
  cases b with
  | none => rfl
  | some b =>
    rw [Terminal.setReplayed]
    split
    · rfl
    · rfl

theorem RelayInv.finish (h : RelayInv bytes term) : RelayInv bytes term.finish := by
  rw [Terminal.finish]
  split
  next => exact h
  next =>
    have hset := h.setReplayed term.store.replaying
    have hstore := setReplayed_store term term.store.replaying
    have hring := hset.ring
    have hrelayed := hset.relayed
    have hlegs := hset.legs
    obtain ⟨hbrowser, hreplaying, hgated, hsending⟩ := hset.gate
    rw [hstore] at hring hrelayed hbrowser hreplaying hgated hsending hlegs
    exact ⟨hring, fun hended => absurd hended (by simp), hrelayed,
      ⟨hbrowser, hreplaying, hgated, hsending⟩, hlegs⟩

/-- `from_host` goes on to a place from which nothing is on its way. -/
theorem RelayInv.host (h : RelayInv bytes term) {task : HostTask}
    (hlive : ∀ b, task.liveTo b = term.store.host.liveTo b)
    (hhand : term.store.ended = false → bytes.drop term.store.ring.stop = task.inHand)
    (hrelayed : task.Relayed)
    (hgated : ∀ b frame, task = .gated b frame → ∃ leg, term.phase b = some leg ∧
      (leg.task ≠ .done ∨ leg.replayed = true))
    (hsending : ∀ b frame, task ≠ .sending b frame) :
    RelayInv bytes (term.withHub { term.store with host := task }) := by
  refine ⟨h.ring, hhand, hrelayed, ⟨h.gate.browser, h.gate.replaying, hgated, ?_⟩, ?_⟩
  · intro b frame hb
    exact absurd hb (hsending b frame)
  · intro b leg hb
    have hleg := h.legs b leg hb
    rw [← hlive b] at hleg
    exact hleg

/-- `from_host` is through with its frame. -/
theorem RelayInv.idle (h : RelayInv bytes term) (hquiet : ∀ b, term.store.host.liveTo b = [])
    (hhand : term.store.ended = false → bytes.drop term.store.ring.stop = []) :
    RelayInv bytes (term.withHub { term.store with host := .idle }) := by
  refine h.host ?_ hhand trivial ?_ ?_
  · intro b
    rw [hquiet b]
    rfl
  · intro b gated hb
    cases hb
  · intro b sent hb
    cases hb

theorem RelayInv.handed (h : RelayInv bytes term) (hidle : term.store.host = .idle)
    {frame : HostFrame} (hframe : frame.Relayed) :
    RelayInv (bytes ++ frame.bytes) (term.withHub { term.store with host := .delayed frame }) := by
  refine ⟨h.ring.handed _, ?_, hframe, ⟨h.gate.browser, h.gate.replaying, ?_, ?_⟩, ?_⟩
  · intro hended
    have hhand := h.hand hended
    rw [hidle] at hhand
    change (bytes ++ frame.bytes).drop term.store.ring.stop = frame.bytes
    rw [List.drop_append_of_le_length h.ring.stop, hhand]
    rfl
  · intro b gated hb
    cases hb
  · intro b sending hb
    cases hb
  · intro b leg hb
    have hleg := (h.legs b leg hb).handed h.ring.stop frame.bytes
    rw [hidle] at hleg
    exact hleg

/-- A frame goes live: no replay runs, so its browser has had all that came before it. -/
theorem RelayInv.live (h : RelayInv bytes term) (hquiet : ∀ b, term.store.host.liveTo b = [])
    (hopen : term.store.replaying = none) {ring : Ring} (hring : RingInv bytes ring)
    (hstop : term.store.ring.stop ≤ ring.stop) (hall : bytes.drop ring.stop = []) {frame : Frame}
    (hframe : outputs [frame] = (bytes.take ring.stop).drop term.store.ring.stop) :
    RelayInv bytes (term.live { term.store with ring := ring } frame) := by
  rw [Terminal.live]
  split
  next browser hbrowser =>
    refine ⟨hring, fun _ => hall, trivial, ⟨h.gate.browser, h.gate.replaying, ?_, ?_⟩, ?_⟩
    · intro b gated hb
      cases hb
    · intro b sent hb
      cases hb
      obtain ⟨leg, hleg, _⟩ := h.gate.browser _ hbrowser
      exact ⟨leg, hleg⟩
    · intro b leg hb
      have hleg := h.legs b leg hb
      rw [hquiet b] at hleg
      by_cases hcur : browser = b
      · subst hcur
        obtain ⟨leg', hleg', hgate⟩ := h.gate.browser _ hbrowser
        obtain rfl : leg' = leg := Option.some.inj (hleg'.symm.trans hb)
        have hdone : leg'.task = .done := by
          by_contra hne
          exact absurd ((hgate hne).symm.trans hopen) (by simp)
        have hsent := hleg.delivered hbrowser hdone hstop hframe
        simpa [HostTask.liveTo] using hsent
      · have hpassed : LegInv bytes ring.stop [] (term.store.browser = some b) leg :=
          hleg.passed hstop fun hb' => absurd (Option.some.inj (hbrowser.symm.trans hb')) hcur
        simpa [HostTask.liveTo, hcur] using hpassed
  next hnone =>
    refine ⟨hring, fun _ => hall, trivial, ⟨h.gate.browser, h.gate.replaying, ?_, ?_⟩, ?_⟩
    · intro b gated hb
      cases hb
    · intro b sent hb
      cases hb
    · intro b leg hb
      have hleg := h.legs b leg hb
      rw [hquiet b] at hleg
      exact hleg.passed hstop fun hcur => absurd (hnone.symm.trans hcur) (by simp)

theorem RelayInv.deliver (h : RelayInv bytes term) (hquiet : ∀ b, term.store.host.liveTo b = [])
    (hopen : term.store.replaying = none) {frame : HostFrame} (hframe : frame.Relayed)
    (hhand : bytes.drop term.store.ring.stop = frame.bytes) :
    RelayInv bytes (term.deliver frame) := by
  have hstop := h.ring.stop
  cases frame with
  | output more =>
    have hmore : bytes.drop term.store.ring.stop = more := hhand
    have hring := h.ring.append hmore
    have hnew : (term.store.ring.append more).stop = term.store.ring.stop + more.length := rfl
    have hlength : bytes.length = term.store.ring.stop + more.length := by
      have hlength := congrArg List.length hmore
      rw [List.length_drop] at hlength
      omega
    refine h.live hquiet hopen hring (by omega) ?_ ?_
    · rw [hnew, ← hlength, List.drop_length]
    · rw [hnew, ← hlength, List.take_length, hmore]
      simp [outputs]
  | signal more =>
    refine h.live hquiet hopen h.ring (le_refl _) hhand ?_
    simp [outputs]
  | resume offset => exact absurd hframe id
  | exit status =>
    rw [Terminal.deliver]
    split
    next =>
      refine h.live hquiet hopen h.ring (le_refl _) hhand ?_
      simp [outputs]
    next =>
      exact (h.idle hquiet fun _ => hhand).finish
  | keepalive => exact h.idle hquiet fun _ => hhand

theorem RelayInv.gated (h : RelayInv bytes term) (hquiet : ∀ b, term.store.host.liveTo b = [])
    {frame : HostFrame} (hframe : frame.Relayed)
    (hhand : term.store.ended = false → bytes.drop term.store.ring.stop = frame.bytes) :
    RelayInv bytes (term.gate frame) := by
  rw [Terminal.gate]
  split
  next hended =>
    refine h.idle hquiet ?_
    intro hfalse
    simp [hended] at hfalse
  next hlive =>
    have hhand := hhand (by simpa using hlive)
    split
    next replay hreplay =>
      refine h.host ?_ (fun _ => hhand) hframe ?_ ?_
      · intro b
        rw [hquiet b]
        rfl
      · intro b gated hb
        cases hb
        obtain ⟨leg, hleg, hruns⟩ := h.gate.replaying _ hreplay
        exact ⟨leg, hleg, .inl hruns⟩
      · intro b sent hb
        cases hb
    next hopen => exact h.deliver hquiet hopen hframe hhand

theorem gate_delayed (term : Terminal) (task : HostTask) (frame : HostFrame) :
    (term.withHub { term.store with host := task }).gate frame = term.gate frame := by
  cases frame with
  | exit status =>
    simp only [Terminal.gate, Terminal.deliver, Terminal.live, withHub_store]
    rfl
  | output more => rfl
  | signal more => rfl
  | resume offset => rfl
  | keepalive => rfl

theorem RelayInv.handOver (h : RelayInv bytes term) (hidle : term.store.host = .idle)
    {frame : HostFrame} (hframe : frame.Relayed) (slow : Bool) :
    RelayInv (bytes ++ frame.bytes) (term.handOver frame slow) := by
  have hhand := h.handed hidle hframe
  have hquiet : ∀ b, HostTask.liveTo (.delayed frame) b = [] := fun _ => rfl
  have hgate := hhand.gated hquiet hframe hhand.hand
  rw [gate_delayed] at hgate
  unfold Terminal.handOver
  split
  next hended =>
    refine ⟨h.ring.handed _, fun hfalse => absurd (hended.symm.trans hfalse) (by simp), h.relayed,
      h.gate, ?_⟩
    intro b leg hb
    exact (h.legs b leg hb).handed h.ring.stop _
  next =>
    cases frame with
    | output more =>
      cases slow with
      | true => exact hhand
      | false => exact hgate
    | exit status => exact hgate
    | signal more => exact hgate
    | resume offset => exact hgate
    | keepalive =>
      have hnone : HostFrame.keepalive.bytes = [] := rfl
      rw [hnone, List.append_nil]
      exact h

theorem detach_host (hub : Hub) (b : Nat) (task : HostTask) :
    { hub.detach b with host := task } = ({ hub with host := task }).detach b := by
  simp only [Hub.detach]
  split
  · rfl
  · rfl

theorem take_task (leg : Leg) (frame : Frame) : (leg.take frame).task = leg.task := by
  rw [Leg.take]
  split
  · rfl
  · rfl

theorem take_replayed (leg : Leg) (frame : Frame) :
    (leg.take frame).replayed = leg.replayed := by
  rw [Leg.take]
  split
  · rfl
  · rfl

theorem take_resume (leg : Leg) (frame : Frame) : (leg.take frame).resume = leg.resume := by
  rw [Leg.take]
  split
  · rfl
  · rfl

theorem take_lost (leg : Leg) (frame : Frame) : (leg.take frame).lost = leg.lost := by
  rw [Leg.take]
  split
  · rfl
  · rfl

theorem RelayInv.sent (h : RelayInv bytes term) {b : Nat} {frame : Frame}
    (hhost : term.store.host = .sending b frame) {leg : Leg} (hleg : term.phase b = some leg) :
    RelayInv bytes (term.sent b frame leg) := by
  have hidle : RelayInv bytes ((term.setLeg b (leg.take frame)).withHub
      { term.store with host := .idle }) := by
    have hgate : GateInv (term.setLeg b (leg.take frame)) := by
      refine h.gate.setLeg hleg ?_ ?_
      · rw [take_task]
      · rw [take_replayed]
        exact id
    refine ⟨h.ring, ?_, trivial, ⟨hgate.browser, hgate.replaying, ?_, ?_⟩, ?_⟩
    · intro hended
      rw [withHub_store, h.hand hended, hhost]
      rfl
    · intro c gated hc
      cases hc
    · intro c sending hc
      cases hc
    · intro c old hc
      by_cases hcb : c = b
      · subst hcb
        rw [withHub_phase, setLeg_self] at hc
        cases hc
        have hlanded := h.legs c leg hleg
        rw [hhost] at hlanded
        simp only [HostTask.liveTo, if_true] at hlanded
        exact hlanded.landed
      · rw [withHub_phase, setLeg_of_ne _ _ hcb] at hc
        have hother := h.legs c old hc
        rw [hhost] at hother
        simpa [HostTask.liveTo, Ne.symm hcb] using hother
  have hafter : RelayInv bytes ((term.setLeg b (leg.take frame)).withHub
      { (if leg.gone then term.store.detach b else term.store) with host := .idle }) := by
    split
    next =>
      rw [detach_host]
      exact hidle.detach b
    next => exact hidle
  cases frame with
  | exit status => exact hafter.finish
  | output more => exact hafter
  | ack offset => exact hafter
  | signal more => exact hafter

theorem RelayInv.attach (h : RelayInv bytes term) {b : Nat} (hfresh : term.phase b = none)
    (offset : Nat) : RelayInv bytes (term.attach b offset) := by
  obtain ⟨hdata, hresume⟩ := h.ring.since offset
  have hknown : ∀ c leg, term.phase c = some leg → (term.attach b offset).phase c = some leg := by
    intro c leg hc
    have hcb : c ≠ b := by
      rintro rfl
      simp [hfresh] at hc
    rw [Terminal.attach, World.write_phase_of_ne hcb, hc]
  have hquiet : term.store.host.liveTo b = [] := by
    cases hhost : term.store.host with
    | sending c frame =>
      obtain ⟨leg, hc⟩ := h.gate.sending c frame hhost
      have hcb : c ≠ b := by
        rintro rfl
        simp [hfresh] at hc
      simp [HostTask.liveTo, hcb]
    | idle => rfl
    | delayed frame => rfl
    | gated c frame => rfl
  refine ⟨h.ring, h.hand, h.relayed, ⟨?_, ?_, ?_, ?_⟩, ?_⟩
  · intro c hc
    cases hc
    exact ⟨_, World.write_phase_self, fun _ => rfl⟩
  · intro c hc
    cases hc
    refine ⟨_, World.write_phase_self, ?_⟩
    simp only
    split
    · simp
    · simp
  · intro c frame hc
    obtain ⟨leg, hleg, hruns⟩ := h.gate.gated c frame hc
    exact ⟨leg, hknown c leg hleg, hruns⟩
  · intro c frame hc
    obtain ⟨leg, hleg⟩ := h.gate.sending c frame hc
    exact ⟨leg, hknown c leg hleg⟩
  · intro c leg hc
    by_cases hcb : c = b
    · subst hcb
      rw [Terminal.attach, World.write_phase_self] at hc
      cases hc
      refine ⟨?_, fun _ => hquiet⟩
      refine ⟨if (term.store.ring.since offset).1 = [] then []
        else [.output (term.store.ring.since offset).1], term.store.ring.stop, hresume, le_refl _,
        ?_, List.nil_prefix, ?_⟩
      · change _ = (bytes.take term.store.ring.stop).drop (term.store.ring.since offset).2.1
        rw [← hdata]
        split
        next hnil => simp [outputs, hnil]
        next => simp [outputs]
      · intro _
        refine ⟨?_, fun _ => rfl⟩
        change _ ++ term.store.host.liveTo c = _
        rw [hquiet, List.append_nil, List.nil_append]
        by_cases hbefore : term.store.browser = none
        · simp [Leg.unsent, Leg.replay, hbefore]
        · simp [Leg.unsent, Leg.replay, hbefore]
    · rw [Terminal.attach, World.write_phase_of_ne hcb] at hc
      refine (h.legs c leg hc).passed (le_refl _) ?_
      intro hcur
      cases hcur
      exact absurd rfl hcb

/-- A browser that is attached: a step of its own keeps what the hub relies on. -/
theorem RelayInv.turn (h : RelayInv bytes term) {b : Nat} {leg leg' : Leg}
    (hleg : term.phase b = some leg) (hresume : leg'.resume = leg.resume)
    (hlost : leg'.lost = leg.lost) (hreceived : leg'.received = leg.received)
    (hunsent : leg'.unsent = leg.unsent) (hgone : leg'.gone = false → leg.gone = false)
    (hdone : leg'.task ≠ .done ↔ leg.task ≠ .done)
    (hreplayed : leg.replayed = true → leg'.replayed = true) : RelayInv bytes (term.setLeg b leg') :=
  h.setLeg hleg hdone hreplayed
    ((h.legs b leg hleg).turned hresume hlost hreceived hunsent hgone hdone.mp)

theorem RelayInv.leave (h : RelayInv bytes term) {b : Nat} {leg : Leg}
    (hleg : term.phase b = some leg) : RelayInv bytes (term.setLeg b { leg with gone := true }) :=
  h.turn hleg rfl rfl rfl rfl (fun hfalse => absurd hfalse (by simp)) Iff.rfl id

theorem RelayInv.closed (h : RelayInv bytes term) {b : Nat} {leg : Leg}
    (hleg : term.phase b = some leg) (htask : leg.task = .closing) :
    RelayInv bytes (term.closed b leg) := by
  have hroute : ∀ {term' : Terminal}, RelayInv bytes term' → term'.phase b = some leg →
      RelayInv bytes (term'.setLeg b { leg with task := .routing }) := by
    intro term' h' hleg'
    refine h'.turn hleg' rfl rfl rfl ?_ id (by simp [htask]) id
    simp [Leg.unsent, Leg.replay, Leg.told, htask]
  unfold Terminal.closed
  split
  next => exact hroute h hleg
  next previous hprevious =>
    split
    next => exact hroute h hleg
    next old hold =>
      by_cases hself : previous = b
      · subst hself
        have htwice : (term.setLeg previous { old with gone := true }).setLeg previous
            { leg with task := .routing } = term.setLeg previous { leg with task := .routing } :=
          World.write_write
        rw [htwice]
        exact hroute h hleg
      · refine hroute (h.leave hold) ?_
        rw [setLeg_of_ne _ _ (Ne.symm hself), hleg]

theorem RelayInv.routed (h : RelayInv bytes term) {b : Nat} {leg : Leg}
    (hleg : term.phase b = some leg) (htask : leg.task = .routing) (hostLost : Bool) :
    RelayInv bytes (term.routed b leg hostLost) := by
  have hsends : RelayInv bytes (term.setLeg b { leg with task := .sending leg.replay }) := by
    refine h.turn hleg rfl rfl rfl ?_ id (by simp [htask]) id
    simp [Leg.unsent, htask]
  rw [Terminal.routed]
  split
  next => exact hsends.finish
  next => exact hsends

theorem RelayInv.replaySent (h : RelayInv bytes term) {b : Nat} {leg : Leg} {frame : Frame}
    {frames : List Frame} (hleg : term.phase b = some leg)
    (htask : leg.task = .sending (frame :: frames)) :
    RelayInv bytes (term.replaySent b leg frame frames) := by
  have hset : RelayInv bytes
      (term.setLeg b { leg.take frame with task := .sending frames }) := by
    refine h.setLeg hleg (by simp [htask]) ?_ ((h.legs b leg hleg).replayed htask)
    change _ → (leg.take frame).replayed = true
    rw [take_replayed]
    exact id
  rw [Terminal.replaySent]
  split
  next => exact hset.detach b
  next => exact hset

theorem RelayInv.replayDone (h : RelayInv bytes term) {b : Nat} {leg : Leg}
    (hleg : term.phase b = some leg) (htask : leg.task = .sending []) :
    RelayInv bytes (term.replayDone b leg) := by
  have hother : ∀ c old, c ≠ b → term.phase c = some old →
      (term.replayDone b leg).phase c = some old := by
    intro c old hcb hc
    rw [Terminal.replayDone, withHub_phase, setLeg_of_ne _ _ hcb, hc]
  have hself : (term.replayDone b leg).phase b =
      some { leg with task := .done, replayed := true } := by
    rw [Terminal.replayDone, withHub_phase, setLeg_self]
  have hreplaying : ∀ c, (term.replayDone b leg).store.replaying = some c ↔
      term.store.replaying = some c ∧ c ≠ b := by
    intro c
    simp only [Terminal.replayDone, withHub_store]
    split
    next heq => simp [heq]; exact fun hc => hc.symm
    next hne =>
      constructor
      · intro hc
        refine ⟨hc, ?_⟩
        rintro rfl
        exact hne hc
      · exact fun hc => hc.1
  have hstore : (term.replayDone b leg).store = { term.store with
      replaying := (term.replayDone b leg).store.replaying } := by
    simp only [Terminal.replayDone, withHub_store]
    split
    · rfl
    · rfl
  have hhost : (term.replayDone b leg).store.host = term.store.host := by rw [hstore]
  have hbrowser : (term.replayDone b leg).store.browser = term.store.browser := by rw [hstore]
  refine ⟨by rw [hstore]; exact h.ring, by rw [hstore]; exact h.hand,
    by rw [hstore]; exact h.relayed, ⟨?_, ?_, ?_, ?_⟩, ?_⟩
  · intro c hc
    by_cases hcb : c = b
    · subst hcb
      exact ⟨_, hself, fun hne => absurd rfl hne⟩
    · rw [hbrowser] at hc
      obtain ⟨old, hold, hgate⟩ := h.gate.browser c hc
      exact ⟨old, hother c old hcb hold, fun hne => (hreplaying c).mpr ⟨hgate hne, hcb⟩⟩
  · intro c hc
    obtain ⟨hc, hcb⟩ := (hreplaying c).mp hc
    obtain ⟨old, hold, hruns⟩ := h.gate.replaying c hc
    exact ⟨old, hother c old hcb hold, hruns⟩
  · intro c frame hc
    rw [hhost] at hc
    by_cases hcb : c = b
    · subst hcb
      exact ⟨_, hself, .inr rfl⟩
    · obtain ⟨old, hold, hruns⟩ := h.gate.gated c frame hc
      exact ⟨old, hother c old hcb hold, hruns⟩
  · intro c frame hc
    rw [hhost] at hc
    by_cases hcb : c = b
    · subst hcb
      exact ⟨_, hself⟩
    · obtain ⟨old, hold⟩ := h.gate.sending c frame hc
      exact ⟨old, hother c old hcb hold⟩
  · intro c old hc
    rw [hhost, hbrowser, hstore]
    by_cases hcb : c = b
    · subst hcb
      rw [hself] at hc
      cases hc
      refine (h.legs c leg hleg).turned rfl rfl rfl ?_ id (fun hne => absurd rfl hne)
      simp [Leg.unsent, htask]
    · refine h.legs c old ?_
      rw [← hc, Terminal.replayDone, withHub_phase, setLeg_of_ne _ _ hcb]

/-- The terminal stays on the relay. -/
def Act.Relayed : Act → Prop
  | .handOver frame _ => frame.Relayed
  | _ => True

theorem RelayInv.woken (h : RelayInv bytes term) {frame : HostFrame} (hframe : frame.Relayed)
    (hhost : term.store.host = .delayed frame ∨ ∃ b, term.store.host = .gated b frame) :
    RelayInv bytes (term.gate frame) := by
  refine h.gated ?_ hframe ?_
  · intro b
    rcases hhost with hhost | ⟨c, hhost⟩
    · rw [hhost]
      rfl
    · rw [hhost]
      rfl
  · intro hended
    rw [h.hand hended]
    rcases hhost with hhost | ⟨c, hhost⟩
    · rw [hhost]
      rfl
    · rw [hhost]
      rfl

theorem RelayInv.quiet (h : RelayInv bytes term) {act : Act} (hnone : act.output = []) :
    RelayInv (bytes ++ act.output) term := by
  rw [hnone, List.append_nil]
  exact h

theorem RelayInv.step (h : RelayInv bytes term) {act : Act}
    (hact : act.Relayed) {term' : Terminal} (hstep : term.step act = some term') :
    RelayInv (bytes ++ act.output) term' := by
  cases Terminal.steps_of_step hstep with
  | handOver frame slow hidle => exact h.handOver hidle hact slow
  | @slept frame hdelayed =>
    refine RelayInv.quiet (h.woken ?_ (.inl hdelayed)) rfl
    have hframe := h.relayed
    rwa [hdelayed] at hframe
  | @woken b frame hgated =>
    refine RelayInv.quiet (h.woken ?_ (.inr ⟨b, hgated⟩)) rfl
    have hframe := h.relayed
    rwa [hgated] at hframe
  | sent hsending hleg => exact RelayInv.quiet (h.sent hsending hleg) rfl
  | attach offset hfresh => exact RelayInv.quiet (h.attach hfresh offset) rfl
  | closed hleg htask => exact RelayInv.quiet (h.closed hleg htask) rfl
  | routed hostLost hleg htask => exact RelayInv.quiet (h.routed hleg htask hostLost) rfl
  | replaySent hleg htask => exact RelayInv.quiet (h.replaySent hleg htask) rfl
  | replayDone hleg htask => exact RelayInv.quiet (h.replayDone hleg htask) rfl
  | leave hleg => exact RelayInv.quiet (h.leave hleg) rfl
  | detach b => exact RelayInv.quiet (h.detach b) rfl
  | finish => exact RelayInv.quiet h.finish rfl

end Steps

/-- Attached browsers stay attached to the stretch of output they were given. -/
def Keeps (term term' : Terminal) : Prop :=
  ∀ b leg, term.phase b = some leg → ∃ leg', term'.phase b = some leg' ∧
    leg'.resume = leg.resume ∧ leg'.lost = leg.lost

section Keeps

variable {term term' term'' : Terminal}

theorem Keeps.refl (term : Terminal) : Keeps term term := by
  intro b leg hleg
  exact ⟨leg, hleg, rfl, rfl⟩

theorem Keeps.trans (h : Keeps term term') (h' : Keeps term' term'') : Keeps term term'' := by
  intro b leg hleg
  obtain ⟨leg', hleg', hresume, hlost⟩ := h b leg hleg
  obtain ⟨leg'', hleg'', hresume', hlost'⟩ := h' b leg' hleg'
  exact ⟨leg'', hleg'', hresume'.trans hresume, hlost'.trans hlost⟩

theorem Keeps.withHub (h : Keeps term term') (hub : Hub) : Keeps term (term'.withHub hub) := h

theorem Keeps.setLeg (h : Keeps term term') {b : Nat} {leg leg' : Leg}
    (hleg : term'.phase b = some leg) (hresume : leg'.resume = leg.resume)
    (hlost : leg'.lost = leg.lost) : Keeps term (term'.setLeg b leg') := by
  refine h.trans ?_
  intro c old hold
  by_cases hcb : c = b
  · subst hcb
    obtain rfl : leg = old := Option.some.inj (hleg.symm.trans hold)
    exact ⟨leg', setLeg_self .., hresume, hlost⟩
  · exact ⟨old, by rw [setLeg_of_ne _ _ hcb, hold], rfl, rfl⟩

theorem Keeps.finish (h : Keeps term term') : Keeps term term'.finish := by
  rw [Terminal.finish]
  split
  next => exact h
  next =>
    refine Keeps.withHub ?_ _
    cases term'.store.replaying with
    | none => exact h
    | some b =>
      rw [Terminal.setReplayed]
      split
      next => exact h
      next leg hleg => exact h.setLeg hleg rfl rfl

theorem keeps_live (hub : Hub) (frame : Frame) : Keeps term (term.live hub frame) := by
  rw [Terminal.live]
  split
  · exact (Keeps.refl term).withHub _
  · exact (Keeps.refl term).withHub _

theorem keeps_gate (frame : HostFrame) : Keeps term (term.gate frame) := by
  rw [Terminal.gate]
  split
  next => exact (Keeps.refl term).withHub _
  next =>
    split
    next => exact (Keeps.refl term).withHub _
    next =>
      cases frame with
      | output bytes => exact keeps_live _ _
      | signal bytes => exact keeps_live _ _
      | resume offset => exact keeps_live _ _
      | keepalive => exact (Keeps.refl term).withHub _
      | exit status =>
        rw [Terminal.deliver]
        split
        next => exact keeps_live _ _
        next => exact ((Keeps.refl term).withHub _).finish

theorem keeps_handOver (frame : HostFrame) (slow : Bool) :
    Keeps term (term.handOver frame slow) := by
  unfold Terminal.handOver
  split
  next => exact Keeps.refl term
  next =>
    split
    next => exact Keeps.refl term
    next => exact (Keeps.refl term).withHub _
    next => exact keeps_gate _

theorem keeps_sent {b : Nat} {leg : Leg} (hleg : term.phase b = some leg) (frame : Frame) :
    Keeps term (term.sent b frame leg) := by
  have htake : Keeps term (term.setLeg b (leg.take frame)) :=
    (Keeps.refl term).setLeg hleg (take_resume ..) (take_lost ..)
  cases frame with
  | exit status => exact (htake.withHub _).finish
  | output bytes => exact htake.withHub _
  | ack offset => exact htake.withHub _
  | signal bytes => exact htake.withHub _

theorem keeps_attach {b : Nat} (hfresh : term.phase b = none) (offset : Nat) :
    Keeps term (term.attach b offset) := by
  intro c leg hc
  have hcb : c ≠ b := by
    rintro rfl
    simp [hc] at hfresh
  exact ⟨leg, by rw [Terminal.attach, World.write_phase_of_ne hcb, hc], rfl, rfl⟩

theorem keeps_closed {b : Nat} {leg : Leg} (hleg : term.phase b = some leg) :
    Keeps term (term.closed b leg) := by
  have hself := Keeps.refl term
  unfold Terminal.closed
  split
  next => exact hself.setLeg hleg rfl rfl
  next previous _ =>
    split
    next => exact hself.setLeg hleg rfl rfl
    next old hold =>
      have hgone : Keeps term (term.setLeg previous { old with gone := true }) :=
        hself.setLeg hold rfl rfl
      by_cases hpb : previous = b
      · subst hpb
        obtain rfl : leg = old := Option.some.inj (hleg.symm.trans hold)
        exact hgone.setLeg (setLeg_self ..) rfl rfl
      · have hkept : (term.setLeg previous { old with gone := true }).phase b = some leg := by
          rw [setLeg_of_ne _ _ (Ne.symm hpb), hleg]
        exact hgone.setLeg hkept rfl rfl

theorem keeps_routed {b : Nat} {leg : Leg} (hleg : term.phase b = some leg) (hostLost : Bool) :
    Keeps term (term.routed b leg hostLost) := by
  have hset : Keeps term (term.setLeg b { leg with task := .sending leg.replay }) :=
    (Keeps.refl term).setLeg hleg rfl rfl
  rw [Terminal.routed]
  split
  next => exact hset.finish
  next => exact hset

theorem keeps_step {act : Act} (h : term.step act = some term') : Keeps term term' := by
  have hself := Keeps.refl term
  cases Terminal.steps_of_step h with
  | handOver frame slow _ => exact keeps_handOver frame slow
  | slept _ => exact keeps_gate _
  | woken _ _ => exact keeps_gate _
  | sent _ hleg => exact keeps_sent hleg _
  | attach offset hfresh => exact keeps_attach hfresh offset
  | closed hleg _ => exact keeps_closed hleg
  | routed hostLost hleg _ => exact keeps_routed hleg hostLost
  | @replaySent b leg frame frames hleg _ =>
    have hset : Keeps term (term.setLeg b { leg.take frame with task := .sending frames }) :=
      hself.setLeg hleg (take_resume ..) (take_lost ..)
    exact hset.withHub _
  | @replayDone b leg hleg _ =>
    have hset : Keeps term (term.setLeg b { leg with task := .done, replayed := true }) :=
      hself.setLeg hleg rfl rfl
    exact hset.withHub _
  | leave hleg => exact hself.setLeg hleg rfl rfl
  | detach b => exact hself.withHub _
  | finish => exact hself.finish

end Keeps

theorem relayInv_run {capacity : Nat} {trace : List Act} {term : Terminal}
    (hrelay : ∀ act ∈ trace, act.Relayed)
    (h : Trace.run Terminal.step (.start capacity) trace = some term) :
    RelayInv (handedOver trace) term := by
  refine Trace.run_keeps (I := fun trace term => RelayInv (handedOver trace) term)
    (relayInv_start capacity) ?_ hrelay h
  intro trace term act term' hinv hact hstep
  rw [handedOver, List.flatMap_append, List.flatMap_singleton]
  exact hinv.step hact hstep

/-- What a browser has of the output, and when it has all of it. -/
structure Exact (bytes : Bytes) (term : Terminal) (b : Nat) (leg : Leg) : Prop where
  contiguous : ∃ live, leg.received <+: leg.told ++ live ∧ outputs live <+: bytes.drop leg.resume
  complete : term.store.browser = some b → leg.gone = false → leg.task = .done →
    term.store.host = .idle → term.store.ended = false →
    ∃ live, leg.received = leg.told ++ live ∧ outputs live = bytes.drop leg.resume
  unblocked : ∀ c frame, term.store.host = .gated c frame → ∃ other, term.phase c = some other ∧
    (other.task ≠ .done ∨ other.replayed = true)

theorem RelayInv.exact {bytes : Bytes} {term : Terminal} (h : RelayInv bytes term) {b : Nat}
    {leg : Leg} (hleg : term.phase b = some leg) : Exact bytes term b leg := by
  obtain ⟨live, n, hresume, hn, hlive, hsome, hall⟩ := (h.legs b leg hleg).exact
  refine ⟨⟨live, hsome, ?_⟩, ?_, h.gate.gated⟩
  · rw [hlive, List.drop_take]
    exact List.take_prefix ..
  · intro hcurrent hgone hdone hidle hended
    obtain ⟨heq, hcur⟩ := hall hgone
    have hstop : bytes.drop term.store.ring.stop = [] := by
      rw [h.hand hended, hidle]
      rfl
    have htake : bytes.take n = bytes := by
      rw [hcur hcurrent, ← List.append_nil (bytes.take _), ← hstop, List.take_append_drop]
    refine ⟨live, ?_, by rw [hlive, htake]⟩
    rw [← heq, hidle]
    simp [Leg.unsent, hdone, HostTask.liveTo]

/-- The relay is exact in every interleaving, for every attach of every browser. -/
theorem relay_exact {capacity b offset : Nat} {before after : List Act} {term₀ term : Terminal}
    (hbefore : Trace.run Terminal.step (.start capacity) before = some term₀)
    (hrun : Trace.run Terminal.step term₀ (.attach b offset :: after) = some term)
    (hrelay : ∀ act ∈ before ++ .attach b offset :: after, act.Relayed) :
    ∃ leg, term.phase b = some leg ∧
      (leg.lost = true ↔ offset < term₀.store.ring.start) ∧
      leg.resume = max (min offset term₀.store.ring.stop) term₀.store.ring.start ∧
      Exact (handedOver (before ++ .attach b offset :: after)) term b leg := by
  rw [Trace.run_cons, Option.bind_eq_some_iff] at hrun
  obtain ⟨term₁, hattach, hafter⟩ := hrun
  have hkeeps : Keeps term₁ term := by
    refine Trace.run_keeps_from (Keeps.refl term₁) ?_ hafter
    intro s act s' hs hstep
    exact hs.trans (keeps_step hstep)
  have hwhole : Trace.run Terminal.step (.start capacity) (before ++ .attach b offset :: after) =
      some term := by
    rw [Trace.run_append, hbefore, Option.bind_some, Trace.run_cons, hattach, Option.bind_some,
      hafter]
  have hinv := relayInv_run hrelay hwhole
  cases Terminal.steps_of_step hattach with
  | attach _ _ =>
    obtain ⟨leg, hleg, hresume, hlost⟩ := hkeeps b _ World.write_phase_self
    refine ⟨leg, hleg, ?_, hresume, hinv.exact hleg⟩
    have hstart : term₀.store.ring.start ≤ term₀.store.ring.stop := Nat.sub_le ..
    have htold : leg.lost = decide (min offset term₀.store.ring.stop < term₀.store.ring.start) :=
      hlost
    rw [htold, decide_eq_true_eq]
    omega

/-- Three bytes into a ring of two, and a fourth to the browser that attached at the start. -/
def lateAttach : List Act :=
  [.routed 0 false, .replaySent 0, .replaySent 0, .replaySent 0, .replayDone 0,
    .handOver (.output [4]) false, .sent]

theorem relay_exact_late : ∃ term₀ term,
    Trace.run Terminal.step (.start 2) [.handOver (.output [1, 2, 3]) false] = some term₀ ∧
    Trace.run Terminal.step term₀ (.attach 0 0 :: lateAttach) = some term ∧
    ∃ leg, term.phase 0 = some leg ∧ (leg.lost = true ↔ 0 < term₀.store.ring.start) ∧
      leg.resume = max (min 0 term₀.store.ring.stop) term₀.store.ring.start ∧
      Exact (handedOver ([.handOver (.output [1, 2, 3]) false] ++ .attach 0 0 :: lateAttach))
        term 0 leg := by
  refine ⟨_, _, rfl, rfl, relay_exact rfl rfl ?_⟩
  simp [lateAttach, Act.Relayed, HostFrame.Relayed]

end Trackinizer.Terminals
