import Trackinizer.Lib.Window
import Trackinizer.TerminalHub

namespace Trackinizer.Terminals

open Interleave Window

@[simp] theorem withHub_store (term : Terminal) (hub : Hub) : (term.withHub hub).store = hub := rfl

@[simp] theorem withHub_phase (term : Terminal) (hub : Hub) :
    (term.withHub hub).phase = term.phase := rfl

@[simp] theorem setLeg_self (term : Terminal) (b : Nat) (leg : Leg) :
    (term.setLeg b leg).phase b = some leg :=
  World.move_phase_self

theorem setLeg_of_ne (term : Terminal) {b c : Nat} (leg : Leg) (h : c ≠ b) :
    (term.setLeg b leg).phase c = term.phase c :=
  World.move_phase_of_ne h

theorem outputs_append (xs ys : List Frame) : outputs (xs ++ ys) = outputs xs ++ outputs ys :=
  List.flatMap_append

/-- The frames of a browser's attach that are still to be sent. -/
def Leg.unsent (leg : Leg) : List Frame :=
  match leg.task with
  | .closing | .routing => leg.replay
  | .sending frames => frames
  | .done => []

/-- The live frame on its way to a browser. -/
def HostTask.liveTo (task : HostTask) (browser : Nat) : List Frame :=
  match task with
  | .sending b frame => if b = browser then [frame] else []
  | _ => []

/-- The output in a frame that has not come to the ring. -/
def HostTask.inHand : HostTask → Bytes
  | .delayed frame => frame.bytes
  | .gated _ frame => frame.bytes
  | _ => []

/-- What a browser was sent, is being sent and will be sent of its replay are what it is told
and a gapless stretch of the output from `resume`, which for the terminal's browser is all. -/
structure LegInv (bytes : Bytes) (stop : Nat) (pending : List Frame) (current : Prop)
    (leg : Leg) : Prop where
  exact : ∃ live n, leg.resume ≤ n ∧ n ≤ stop ∧ outputs live = (bytes.take n).drop leg.resume ∧
    leg.received <+: leg.told ++ live ∧
    (leg.gone = false → leg.received ++ leg.unsent ++ pending = leg.told ++ live ∧
      (current → n = stop))
  quiet : leg.task ≠ .done → pending = []

section Legs

variable {bytes : Bytes} {stop stop' : Nat} {pending : List Frame} {current : Prop} {leg : Leg}

theorem LegInv.handed (h : LegInv bytes stop pending current leg) (hstop : stop ≤ bytes.length)
    (more : Bytes) : LegInv (bytes ++ more) stop pending current leg := by
  obtain ⟨live, n, hresume, hn, hlive, hrest⟩ := h.exact
  refine ⟨⟨live, n, hresume, hn, ?_, hrest⟩, h.quiet⟩
  rw [hlive, List.take_append_of_le_length (by omega)]

/-- The ring goes on without a browser that is not the terminal's, or is gone. -/
theorem LegInv.passed (h : LegInv bytes stop pending current leg) {current' : Prop}
    (hstop : stop ≤ stop') (hcurrent : current' → leg.gone = false → current ∧ stop = stop') :
    LegInv bytes stop' pending current' leg := by
  obtain ⟨live, n, hresume, hn, hlive, hsome, hall⟩ := h.exact
  refine ⟨⟨live, n, hresume, by omega, hlive, hsome, ?_⟩, h.quiet⟩
  intro hgone
  refine ⟨(hall hgone).1, ?_⟩
  intro hcur
  obtain ⟨hcur, heq⟩ := hcurrent hcur hgone
  rw [(hall hgone).2 hcur, heq]

/-- A live frame sets out to the terminal's browser. -/
theorem LegInv.delivered (h : LegInv bytes stop [] current leg) (hcurrent : current)
    (hdone : leg.task = .done) (hstop : stop ≤ stop') {frame : Frame}
    (hframe : outputs [frame] = (bytes.take stop').drop stop) :
    LegInv bytes stop' [frame] current leg := by
  obtain ⟨live, n, hresume, hn, hlive, hsome, hall⟩ := h.exact
  refine ⟨?_, fun hne => absurd hdone hne⟩
  cases hgone : leg.gone with
  | true =>
    refine ⟨live, n, hresume, by omega, hlive, hsome, ?_⟩
    intro hfalse
    simp at hfalse
  | false =>
    obtain ⟨heq, hcur⟩ := hall hgone
    obtain rfl := hcur hcurrent
    refine ⟨live ++ [frame], stop', by omega, le_refl _, ?_, ?_, ?_⟩
    · rw [outputs_append, hframe, hlive]
      exact slice_append bytes hresume hstop
    · rw [← List.append_assoc]
      exact hsome.trans (List.prefix_append ..)
    · intro _
      refine ⟨?_, fun _ => rfl⟩
      rw [List.append_nil] at heq
      rw [heq, List.append_assoc]

/-- A frame that is on its way lands, or its browser is gone. -/
theorem LegInv.landed {frame : Frame} (h : LegInv bytes stop [frame] current leg) :
    LegInv bytes stop [] current (leg.take frame) := by
  have hdone : leg.task = .done := by
    by_contra hne
    simpa using h.quiet hne
  obtain ⟨live, n, hresume, hn, hlive, hsome, hall⟩ := h.exact
  refine ⟨?_, fun _ => rfl⟩
  cases hgone : leg.gone with
  | true =>
    refine ⟨live, n, ?_⟩
    simp only [Leg.take, hgone, if_true]
    refine ⟨hresume, hn, hlive, hsome, ?_⟩
    intro hfalse
    simp at hfalse
  | false =>
    obtain ⟨heq, hcur⟩ := hall hgone
    refine ⟨live, n, ?_⟩
    have hunsent : leg.unsent = [] := by simp [Leg.unsent, hdone]
    rw [hunsent, List.append_nil] at heq
    simp only [Leg.take, hgone, Leg.unsent, hdone, Bool.false_eq_true, if_false]
    refine ⟨hresume, hn, hlive, ?_, ?_⟩
    · rw [heq]
      exact List.prefix_refl _
    · intro _
      refine ⟨?_, hcur⟩
      rw [heq]
      simp [Leg.told]

/-- The attach sends its next frame. -/
theorem LegInv.replayed (h : LegInv bytes stop pending current leg) {frame : Frame}
    {frames : List Frame} (htask : leg.task = .sending (frame :: frames)) :
    LegInv bytes stop pending current { leg.take frame with task := .sending frames } := by
  obtain rfl := h.quiet (by simp [htask])
  obtain ⟨live, n, hresume, hn, hlive, hsome, hall⟩ := h.exact
  refine ⟨?_, fun _ => rfl⟩
  cases hgone : leg.gone with
  | true =>
    refine ⟨live, n, ?_⟩
    simp only [Leg.take, hgone, if_true]
    refine ⟨hresume, hn, hlive, hsome, ?_⟩
    intro hfalse
    simp at hfalse
  | false =>
    obtain ⟨heq, hcur⟩ := hall hgone
    refine ⟨live, n, ?_⟩
    have hunsent : leg.unsent = frame :: frames := by simp [Leg.unsent, htask]
    rw [hunsent, List.append_nil] at heq
    have hlanded : leg.received ++ [frame] ++ frames = leg.told ++ live := by
      rw [← heq]
      simp
    simp only [Leg.take, hgone, Leg.unsent, Bool.false_eq_true, if_false]
    refine ⟨hresume, hn, hlive, ?_, ?_⟩
    · exact ⟨frames, hlanded⟩
    · intro _
      refine ⟨?_, hcur⟩
      rw [List.append_nil]
      exact hlanded

/-- A step of a browser that sends it nothing. -/
theorem LegInv.turned (h : LegInv bytes stop pending current leg) {leg' : Leg}
    (hresume : leg'.resume = leg.resume) (hlost : leg'.lost = leg.lost)
    (hreceived : leg'.received = leg.received) (hunsent : leg'.unsent = leg.unsent)
    (hgone : leg'.gone = false → leg.gone = false)
    (hdone : leg'.task ≠ .done → leg.task ≠ .done) :
    LegInv bytes stop pending current leg' := by
  have htold : leg'.told = leg.told := by
    simp [Leg.told, hlost, hresume]
  obtain ⟨live, n, hle, hn, hlive, hsome, hall⟩ := h.exact
  refine ⟨⟨live, n, ?_⟩, fun hne => h.quiet (hdone hne)⟩
  rw [hresume, hreceived, hunsent, htold]
  exact ⟨hle, hn, hlive, hsome, fun hg => hall (hgone hg)⟩

end Legs

/-- The ring holds the last of what came to it. -/
structure RingInv (bytes : Bytes) (ring : Ring) : Prop where
  stop : ring.stop ≤ bytes.length
  data : ring.data = (bytes.take ring.stop).rtake ring.capacity

theorem RingInv.start {bytes : Bytes} {ring : Ring} (h : RingInv bytes ring) :
    ring.start = ring.stop - ring.capacity := by
  rw [Ring.start, h.data, length_rtake, List.length_take, Nat.min_eq_left h.stop]
  omega

theorem RingInv.handed {bytes : Bytes} {ring : Ring} (h : RingInv bytes ring) (more : Bytes) :
    RingInv (bytes ++ more) ring := by
  refine ⟨?_, ?_⟩
  · rw [List.length_append]
    exact Nat.le_add_right_of_le h.stop
  · rw [h.data, List.take_append_of_le_length h.stop]

theorem RingInv.append {bytes more : Bytes} {ring : Ring} (h : RingInv bytes ring)
    (hmore : bytes.drop ring.stop = more) : RingInv bytes (ring.append more) := by
  have hlength : bytes.length = ring.stop + more.length := by
    have hstop := h.stop
    rw [← hmore, List.length_drop]
    omega
  have hall : bytes.take (ring.stop + more.length) = bytes.take ring.stop ++ more := by
    rw [← hlength, List.take_length, ← hmore, List.take_append_drop]
  refine ⟨hlength.ge, ?_⟩
  have hcut := rtake_rtake_append ring.capacity (bytes.take ring.stop) more
  rw [← h.data] at hcut
  simp only [Ring.append]
  rw [hall, ← hcut, List.rtake]

/-- The ring's bytes from an offset are the output from where they start. -/
theorem RingInv.since {bytes : Bytes} {ring : Ring} (h : RingInv bytes ring) (offset : Nat) :
    (ring.since offset).1 = (bytes.take ring.stop).drop (ring.since offset).2.1 ∧
      (ring.since offset).2.1 ≤ ring.stop := by
  have hstart := h.start
  have hlength : (bytes.take ring.stop).length = ring.stop := by
    rw [List.length_take, Nat.min_eq_left h.stop]
  have hbefore : ring.start ≤ ring.stop := by
    rw [hstart]
    exact Nat.sub_le ..
  simp only [Ring.since]
  constructor
  · have hle : (bytes.take ring.stop).length - ring.capacity ≤
        max (min offset ring.stop) (ring.stop - ring.capacity) := by
      rw [hlength]
      exact Nat.le_max_right ..
    have hdrop := drop_rtake ring.capacity _ hle
    rw [hlength] at hdrop
    rw [h.data, hstart]
    exact hdrop
  · omega

end Trackinizer.Terminals
