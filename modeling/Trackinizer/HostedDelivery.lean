import Trackinizer.HostedTerminal

namespace Trackinizer.Hosted

open Window

theorem outputs_snoc (frames : List Frame) (frame : Frame) :
    outputs (frames ++ [frame]) = outputs frames ++ outputs [frame] :=
  List.flatMap_append

/-- The host's window on what the child has written. -/
structure WindowInv (replayBytes : Nat) (stream : Bytes) (host : Host) : Prop where
  size : host.replayBytes = replayBytes
  recent : host.recent = stream.rtake replayBytes
  trimmed : host.recentTrimmed = decide (replayBytes < stream.length)

section Window

variable {replayBytes : Nat} {stream : Bytes} {host : Host}

theorem WindowInv.record (h : WindowInv replayBytes stream host) (chunk : Bytes) :
    WindowInv replayBytes (stream ++ chunk) (host.record chunk) := by
  obtain ⟨rfl, hrecent, htrimmed⟩ := h
  refine ⟨rfl, ?_, ?_⟩
  · rw [← rtake_rtake_append, ← hrecent]
    rfl
  · have hlength := congrArg List.length hrecent
    rw [length_rtake] at hlength
    simp only [Host.record, htrimmed, List.length_append, hlength]
    rw [← Bool.decide_or, decide_eq_decide]
    omega

/-- Only the child's output moves the window. -/
theorem WindowInv.conns (h : WindowInv replayBytes stream host) (conns : List Conn) :
    WindowInv replayBytes stream { host with conns := conns } :=
  ⟨h.size, h.recent, h.trimmed⟩

theorem WindowInv.quiet (h : WindowInv replayBytes stream host) {act : Act}
    (hnone : act.output = []) : WindowInv replayBytes (stream ++ act.output) host := by
  rw [hnone, List.append_nil]
  exact h

theorem WindowInv.replay (h : WindowInv replayBytes stream host) :
    host.replay = stream.drop (replayStart replayBytes stream) := by
  have hwindow : host.recent = stream.drop (stream.length - replayBytes) := h.recent
  rw [Host.replay, replayStart, h.trimmed, hwindow]
  by_cases hcut : replayBytes < stream.length ∧
      newline ∈ stream.drop (stream.length - replayBytes)
  · rw [if_pos hcut, if_pos (by simpa using hcut), List.drop_drop, Nat.add_assoc]
  · rw [if_neg hcut, if_neg (by simpa using hcut)]

theorem replayStart_le (replayBytes : Nat) (stream : Bytes) :
    replayStart replayBytes stream ≤ stream.length := by
  rw [replayStart]
  split
  next hcut =>
    have hlt := List.idxOf_lt_length_of_mem hcut.2
    rw [List.length_drop] at hlt
    omega
  next => exact Nat.sub_le ..

theorem WindowInv.step (h : WindowInv replayBytes stream host) {act : Act} {host' : Host}
    (hstep : host.step act = some host') : WindowInv replayBytes (stream ++ act.output) host' := by
  cases act with
  | connect =>
    cases hstep
    exact (h.conns _).quiet rfl
  | chunk bytes behind =>
    cases hstep
    exact (h.record bytes).conns _
  | leave writer =>
    cases hstep
    exact (h.conns _).quiet rfl
  | farewell status =>
    cases hstep
    exact (h.conns _).quiet rfl
  | request writer frame behind =>
    simp only [Host.step] at hstep
    split at hstep
    next =>
      cases hstep
      refine WindowInv.quiet ?_ rfl
      cases frame with
      | attach => exact h.conns _
      | takeover => exact (h.conns _).conns _
      | viewers => exact h.conns _
      | submitted done => exact h.conns _
      | quiet => exact h
      | malformed => exact h.conns _
    next => cases hstep

theorem windowInv_run {trace : List Act}
    (hrun : Trace.run Host.step { replayBytes := replayBytes } trace = some host) :
    WindowInv replayBytes (childOutput trace) host := by
  refine Trace.run_keeps (P := fun _ => True)
    (I := fun trace host => WindowInv replayBytes (childOutput trace) host) ?_ ?_
    (fun _ _ => trivial) hrun
  · exact ⟨rfl, by simp [childOutput, List.rtake], rfl⟩
  · intro trace host act host' h _ hstep
    rw [childOutput, List.flatMap_append, List.flatMap_singleton]
    exact h.step hstep

end Window

/-- What a connection was sent since its attach is a stretch of the output from `start`; while
it is a viewer, all of it. -/
structure Follows (stream : Bytes) (start : Nat) (base : Bytes) (conn : Conn) : Prop where
  contiguous : ∃ seg, outputs conn.written = base ++ seg ∧ seg <+: stream.drop start
  complete : conn.viewing = true → conn.closing = false →
    outputs conn.written = base ++ stream.drop start
  inside : start ≤ stream.length

section Follows

variable {stream base : Bytes} {start : Nat} {conn : Conn}

/-- The connection is sent no output. -/
theorem Follows.quiet (h : Follows stream start base conn) {conn' : Conn}
    (hsame : outputs conn'.written = outputs conn.written)
    (hviewing : conn'.viewing = true → conn'.closing = false →
      conn.viewing = true ∧ conn.closing = false) : Follows stream start base conn' := by
  refine ⟨?_, ?_, h.inside⟩
  · rw [hsame]
    exact h.contiguous
  · intro hview hopen
    obtain ⟨hview, hopen⟩ := hviewing hview hopen
    rw [hsame, h.complete hview hopen]

/-- The child writes a chunk that the connection is not sent. -/
theorem Follows.missed (h : Follows stream start base conn) {conn' : Conn} (chunk : Bytes)
    (hsame : conn'.written = conn.written)
    (hdropped : conn'.viewing = true → conn'.closing = true) :
    Follows (stream ++ chunk) start base conn' := by
  refine ⟨?_, ?_, ?_⟩
  · obtain ⟨seg, hseg, hpre⟩ := h.contiguous
    refine ⟨seg, by rw [hsame, hseg], ?_⟩
    rw [List.drop_append_of_le_length h.inside]
    exact hpre.trans (List.prefix_append ..)
  · intro hview hopen
    exact absurd ((hdropped hview).symm.trans hopen) (by simp)
  · rw [List.length_append]
    exact Nat.le_add_right_of_le h.inside

theorem Follows.pump (h : Follows stream start base conn) (chunk : Bytes) (behind : Bool) :
    Follows (stream ++ chunk) start base
      (if conn.viewing then conn.send behind (.output chunk) else conn) := by
  split
  next hview =>
    rw [Conn.send]
    split
    next => exact h.missed chunk rfl (fun hfalse => by cases hfalse)
    next hopen =>
      split
      next => exact h.missed chunk rfl (fun hfalse => by cases hfalse)
      next =>
        have hopen : conn.closing = false := by simpa using hopen
        have hall : outputs (conn.write (.output chunk)).written =
            base ++ (stream ++ chunk).drop start := by
          rw [Conn.write, hopen, List.drop_append_of_le_length h.inside]
          simp only [Bool.false_eq_true, if_false]
          rw [outputs_snoc, h.complete hview hopen]
          simp [outputs]
        refine ⟨⟨_, hall, List.prefix_refl _⟩, fun _ _ => hall, ?_⟩
        rw [List.length_append]
        exact Nat.le_add_right_of_le h.inside
  next hview => exact h.missed chunk rfl (fun htrue => absurd htrue hview)

theorem Follows.dropped (h : Follows stream start base conn) :
    Follows stream start base conn.drop.close :=
  h.quiet rfl fun hfalse => by cases hfalse

theorem Follows.write (h : Follows stream start base conn) {frame : Frame}
    (hnone : outputs [frame] = []) : Follows stream start base (conn.write frame) := by
  rw [Conn.write]
  split
  next => exact h
  next =>
    refine h.quiet ?_ (fun hview hopen => ⟨hview, hopen⟩)
    rw [outputs_snoc, hnone, List.append_nil]

theorem Follows.send (h : Follows stream start base conn) (behind : Bool) {frame : Frame}
    (hnone : outputs [frame] = []) : Follows stream start base (conn.send behind frame) := by
  rw [Conn.send]
  split
  next => exact h.quiet rfl fun hfalse => by cases hfalse
  next =>
    split
    next => exact h.dropped
    next => exact h.write hnone

theorem Follows.still (h : Follows stream start base conn) {act : Act}
    (hnone : act.output = []) : Follows (stream ++ act.output) start base conn := by
  rw [hnone, List.append_nil]
  exact h

end Follows

/-- On the host as a viewer. -/
def Conn.Live (conn : Conn) : Prop :=
  conn.viewing = true ∧ conn.closing = false

section Steps

variable {stream base : Bytes} {start writer : Nat} {conn : Conn} {host host' : Host}

theorem send_live {behind : Bool} {frame : Frame} (hlive : conn.Live) (hfast : behind = false) :
    (conn.send behind frame).Live := by
  obtain ⟨hview, hopen⟩ := hlive
  simp [Conn.send, Conn.write, hopen, hfast, Conn.Live, hview]

theorem write_live {frame : Frame} (hlive : conn.Live) : (conn.write frame).Live := by
  obtain ⟨hview, hopen⟩ := hlive
  simp [Conn.write, hopen, Conn.Live, hview]

/-- A change of one connection, as another or the same one sees it. -/
theorem modify_conn {w : Nat} {change : Conn → Conn} (hconn : host.conns[writer]? = some conn) :
    (host.conns.modify w change)[writer]? = some (if w = writer then change conn else conn) := by
  rw [List.getElem?_modify, hconn]
  rfl

theorem follows_request (h : Follows stream start base conn) {w : Nat} {frame : Request}
    {behind : Bool} (hconn : host.conns[writer]? = some conn)
    (hother : ¬ (Act.request w frame behind).Attaches writer) :
    ∃ conn', (host.handle w behind frame).conns[writer]? = some conn' ∧
      Follows stream start base conn' ∧
      (¬ (Act.request w frame behind).Drops writer → conn.Live → conn'.Live) := by
  cases frame with
  | attach =>
    have hne : w ≠ writer := fun heq => hother ⟨heq, .inl rfl⟩
    refine ⟨conn, ?_, h, fun _ hlive => hlive⟩
    exact (modify_conn hconn).trans (by rw [if_neg hne])
  | takeover =>
    have hne : w ≠ writer := fun heq => hother ⟨heq, .inr rfl⟩
    have htaken : (host.takeOver w).conns[writer]? =
        some (if conn.viewing && writer != w then conn.drop.close else conn) := by
      simp only [Host.takeOver, List.getElem?_mapIdx, hconn, Option.map_some]
    refine ⟨_, (modify_conn htaken).trans (by rw [if_neg hne]), ?_, ?_⟩
    · split
      · exact h.dropped
      · exact h
    · intro hstays
      exact absurd hne hstays
  | viewers =>
    refine ⟨_, modify_conn hconn, ?_, ?_⟩
    · split
      · exact h.send behind rfl
      · exact h
    · intro hstays hlive
      split
      next heq =>
        refine send_live hlive ?_
        by_contra hslow
        exact hstays ⟨heq, by simpa using hslow⟩
      next => exact hlive
  | submitted done =>
    refine ⟨_, modify_conn hconn, ?_, ?_⟩
    · split
      · exact h.write rfl
      · exact h
    · intro _ hlive
      split
      · exact write_live hlive
      · exact hlive
  | quiet => exact ⟨conn, hconn, h, fun _ hlive => hlive⟩
  | malformed =>
    refine ⟨_, modify_conn hconn, ?_, ?_⟩
    · split
      · exact h.quiet rfl fun hfalse => by cases hfalse
      · exact h
    · intro hstays hlive
      split
      next heq => exact absurd heq hstays
      next => exact hlive

/-- One step, as a connection sees it that does not attach in it. -/
theorem follows_step (h : Follows stream start base conn) {act : Act}
    (hconn : host.conns[writer]? = some conn) (hother : ¬ act.Attaches writer)
    (hstep : host.step act = some host') :
    ∃ conn', host'.conns[writer]? = some conn' ∧
      Follows (stream ++ act.output) start base conn' ∧
      (¬ act.Drops writer → conn.Live → conn'.Live) := by
  cases act with
  | connect =>
    cases hstep
    refine ⟨conn, ?_, h.still rfl, fun _ hlive => hlive⟩
    obtain ⟨hlt, _⟩ := List.getElem?_eq_some_iff.mp hconn
    rw [List.getElem?_append_left hlt, hconn]
  | chunk bytes behind =>
    cases hstep
    refine ⟨_, ?_, h.pump bytes (behind.contains writer), ?_⟩
    · have hkept : (host.record bytes).conns[writer]? = some conn := hconn
      simp only [Host.pump, List.getElem?_mapIdx, hkept, Option.map_some]
    · intro hstays hlive
      rw [if_pos hlive.1]
      refine send_live hlive ?_
      have hfast : writer ∉ behind := hstays
      simpa using hfast
  | request w frame behind =>
    simp only [Host.step] at hstep
    split at hstep
    next =>
      cases hstep
      obtain ⟨conn', hconn', hfollows, hlive⟩ := follows_request h hconn hother
      exact ⟨conn', hconn', hfollows.still rfl, hlive⟩
    next => cases hstep
  | leave w =>
    cases hstep
    refine ⟨_, modify_conn hconn, ?_, ?_⟩
    · refine Follows.still ?_ rfl
      split
      · exact h.quiet rfl fun hfalse => by cases hfalse
      · exact h
    · intro hstays hlive
      split
      next heq => exact absurd heq hstays
      next => exact hlive
  | farewell status =>
    cases hstep
    have htold : (host.farewell status).conns[writer]? =
        some (if conn.client then (conn.write (.exit status)).close else conn) := by
      simp only [Host.farewell, List.getElem?_map, hconn, Option.map_some]
    refine ⟨_, htold, ?_, ?_⟩
    · refine Follows.still ?_ rfl
      split
      · have hexit : Follows stream start base (conn.write (.exit status)) := h.write rfl
        exact hexit.quiet rfl fun _ hopen => by cases hopen
      · exact h
    · intro hstays
      exact absurd trivial hstays

/-- The step that attaches: the replay is the output from `replayStart` on. -/
theorem follows_attach {replayBytes : Nat} (hwindow : WindowInv replayBytes stream host)
    {frame : Request} (hframe : frame = .attach ∨ frame = .takeover)
    (hconn : host.conns[writer]? = some conn) (behind : Bool) :
    ∃ conn', (host.handle writer behind frame).conns[writer]? = some conn' ∧
      Follows stream (replayStart replayBytes stream) (outputs conn.written) conn' ∧
      (behind = false → conn.closing = false → conn'.Live) := by
  have hattach : ∀ host' : Host, host'.conns[writer]? = some conn →
      WindowInv replayBytes stream host' →
      ∃ conn', (host'.attach writer behind).conns[writer]? = some conn' ∧
        Follows stream (replayStart replayBytes stream) (outputs conn.written) conn' ∧
        (behind = false → conn.closing = false → conn'.Live) := by
    intro host' hconn hwindow
    refine ⟨_, (modify_conn hconn).trans (by rw [if_pos rfl]), ?_, ?_⟩
    · have hnone : ∀ conn' : Conn, conn'.written = conn.written → conn'.closing = true →
          Follows stream (replayStart replayBytes stream) (outputs conn.written) conn' := by
        intro conn' hsame hclosing
        refine ⟨⟨[], by rw [hsame, List.append_nil], List.nil_prefix⟩, ?_, replayStart_le ..⟩
        intro _ hopen
        exact absurd (hclosing.symm.trans hopen) (by simp)
      rw [Conn.send]
      split
      next hclosing => exact hnone _ rfl hclosing
      next hopen =>
        split
        next => exact hnone _ rfl rfl
        next =>
          have hall : outputs (conn.write (.output host'.replay)).written =
              outputs conn.written ++ stream.drop (replayStart replayBytes stream) := by
            rw [Conn.write, if_neg hopen, ← hwindow.replay]
            simp only
            rw [outputs_snoc]
            simp [outputs]
          exact ⟨⟨_, hall, List.prefix_refl _⟩, fun _ _ => hall, replayStart_le ..⟩
    · intro hfast hopen
      simp [Conn.Live, Conn.send, Conn.write, hfast, hopen]
  rcases hframe with rfl | rfl
  · exact hattach host hconn hwindow
  · refine hattach (host.takeOver writer) ?_ (hwindow.conns _)
    simp only [Host.takeOver, List.getElem?_mapIdx, hconn, Option.map_some]
    simp

end Steps

/-- What a viewer is sent after an attach: a stretch of the child's output from where the replay
starts, all of it until the viewer is dropped. -/
structure Delivered (stream : Bytes) (start : Nat) (conn₀ conn : Conn) (stays : Prop) : Prop where
  contiguous : ∃ seg, outputs conn.written = outputs conn₀.written ++ seg ∧
    seg <+: stream.drop start
  complete : conn.Live → outputs conn.written = outputs conn₀.written ++ stream.drop start
  live : stays → conn.Live

theorem hosted_delivery {replayBytes writer : Nat} {before after : List Act} {frame : Request}
    {behind : Bool} {host₀ host : Host}
    (hbefore : Trace.run Host.step { replayBytes := replayBytes } before = some host₀)
    (hrun : Trace.run Host.step host₀ (.request writer frame behind :: after) = some host)
    (hframe : frame = .attach ∨ frame = .takeover)
    (honce : ∀ act ∈ after, ¬ act.Attaches writer) :
    ∃ conn₀ conn, host₀.conns[writer]? = some conn₀ ∧ host.conns[writer]? = some conn ∧
      Delivered (childOutput (before ++ .request writer frame behind :: after))
        (replayStart replayBytes (childOutput before)) conn₀ conn
        (behind = false ∧ conn₀.closing = false ∧ ∀ act ∈ after, ¬ act.Drops writer) := by
  have hwindow := windowInv_run hbefore
  rw [Trace.run_cons, Option.bind_eq_some_iff] at hrun
  obtain ⟨host₁, hattach, hafter⟩ := hrun
  simp only [Host.step] at hattach
  split at hattach
  next hhandles =>
    cases hattach
    obtain ⟨conn₀, hconn₀, _⟩ := (Option.any_eq_true _ _).mp hhandles
    obtain ⟨conn₁, hconn₁, hfollows, hlive⟩ := follows_attach hwindow hframe hconn₀ behind
    have hend : ∃ conn, host.conns[writer]? = some conn ∧
        Follows (childOutput before ++ childOutput after)
          (replayStart replayBytes (childOutput before)) (outputs conn₀.written) conn ∧
        (behind = false → conn₀.closing = false → (∀ act ∈ after, ¬ act.Drops writer) →
          conn.Live) := by
      refine Trace.run_keeps (I := fun trace host => ∃ conn, host.conns[writer]? = some conn ∧
        Follows (childOutput before ++ childOutput trace)
          (replayStart replayBytes (childOutput before)) (outputs conn₀.written) conn ∧
        (behind = false → conn₀.closing = false → (∀ act ∈ trace, ¬ act.Drops writer) →
          conn.Live)) ?_ ?_ honce hafter
      · refine ⟨conn₁, hconn₁, ?_, fun hfast hopen _ => hlive hfast hopen⟩
        simpa [childOutput] using hfollows
      · rintro trace host act host' ⟨conn, hconn, hfollows, hlive⟩ hother hstep
        obtain ⟨conn', hconn', hnext, hkept⟩ := follows_step hfollows hconn hother hstep
        refine ⟨conn', hconn', ?_, ?_⟩
        · have hmore : childOutput (trace ++ [act]) = childOutput trace ++ act.output := by
            simp [childOutput]
          rw [hmore, ← List.append_assoc]
          exact hnext
        · intro hfast hopen hstays
          refine hkept (hstays act (by simp)) (hlive hfast hopen ?_)
          exact fun act hact => hstays act (List.mem_append_left _ hact)
    obtain ⟨conn, hconn, hfollows, hlive⟩ := hend
    have hstream : childOutput (before ++ .request writer frame behind :: after) =
        childOutput before ++ childOutput after := by
      simp [childOutput, Act.output]
    rw [hstream]
    exact ⟨conn₀, conn, hconn₀, hconn, hfollows.contiguous,
      fun hlive => hfollows.complete hlive.1 hlive.2, fun hstays => hlive hstays.1 hstays.2.1
        hstays.2.2⟩
  next => cases hattach

/-- Three bytes with a window of two, then a client that attaches, and a fourth byte. -/
theorem hosted_delivery_trimmed : ∃ host₀ host conn₀ conn,
    Trace.run Host.step { replayBytes := 2 } [.connect, .chunk [97, 10, 98] []] = some host₀ ∧
    Trace.run Host.step host₀ (.request 0 .attach false :: [.chunk [99] []]) = some host ∧
    host₀.conns[0]? = some conn₀ ∧ host.conns[0]? = some conn ∧
    Delivered [97, 10, 98, 99] (replayStart 2 [97, 10, 98]) conn₀ conn
      (false = false ∧ conn₀.closing = false ∧
        ∀ act ∈ [Act.chunk [99] []], ¬ act.Drops 0) := by
  obtain ⟨conn₀, conn, hconn₀, hconn, hdelivered⟩ :=
    @hosted_delivery 2 0 [.connect, .chunk [97, 10, 98] []] [.chunk [99] []] .attach false _ _
      rfl rfl (.inl rfl) (by simp [Act.Attaches])
  exact ⟨_, _, conn₀, conn, rfl, rfl, hconn₀, hconn, hdelivered⟩

end Trackinizer.Hosted
