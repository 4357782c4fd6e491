import Trackinizer.Lib.Lines

namespace Trackinizer.LineCapture

abbrev Bytes := List UInt8

def newline : UInt8 := 0x0a

/-- `_MAX_LINE_BYTES`. -/
def maxLineBytes : Nat := 16384

/-- What a cut line ends in. -/
def truncated : Bytes := "... (truncated)".toUTF8.toList

/-- `LineCapture`, with what it has handed to its consumer. -/
structure Capture where
  buffer : Bytes := []
  dropped : Nat := 0
  emitted : List Bytes := []

/-- `_emit_line`; a consumer's failure is logged and nothing else. -/
def Capture.emitLine (c : Capture) (raw : Bytes) (terminated : Bool) : Capture :=
  let clamped := if maxLineBytes < raw.length then raw.take maxLineBytes else raw
  let marked :=
    if 0 < c.dropped ∨ maxLineBytes < raw.length then clamped ++ truncated else clamped
  { c with
    dropped := 0
    emitted := c.emitted ++ [if terminated then marked ++ [newline] else marked] }

/-- The loop of `feed`, over what is in the buffer. -/
def Capture.drain (c : Capture) : Capture :=
  match _hfind : c.buffer.findIdx? fun b => b == newline with
  | none =>
      -- A child that never ends a line must not fill the memory.
      if maxLineBytes < c.buffer.length then
        { c with
          dropped := c.dropped + (c.buffer.length - maxLineBytes)
          buffer := c.buffer.take maxLineBytes }
      else c
  | some i =>
      ({ c with buffer := c.buffer.drop (i + 1) }.emitLine (c.buffer.take i) true).drain
termination_by c.buffer.length
decreasing_by
  have hlt : i < c.buffer.length := (List.findIdx?_eq_some_iff_findIdx_eq.mp _hfind).1
  simp only [Capture.emitLine, List.length_drop]
  omega

/-- `feed`. -/
def Capture.feed (c : Capture) (chunk : Bytes) : Capture :=
  { c with buffer := c.buffer ++ chunk }.drain

/-- `close`. -/
def Capture.close (c : Capture) : Capture :=
  if c.buffer = [] then c
  else { c.emitLine c.buffer false with buffer := [] }

section Lines

/-- What is captured of a line. -/
def captured (line : Bytes) : Bytes :=
  if line.length ≤ maxLineBytes then line else line.take maxLineBytes ++ truncated

/-- The lines of a stream that a newline ends. -/
def endedLines (stream : Bytes) : List Bytes :=
  (stream.splitOn newline).dropLast

/-- What is behind the last newline. -/
def tailOf (stream : Bytes) : Bytes :=
  (stream.splitOn newline).getLastD []

/-- What is captured of a stream, line by line. -/
def capturedLines (stream : Bytes) : List Bytes :=
  ((endedLines stream).map fun line => captured line ++ [newline]) ++
    if tailOf stream = [] then [] else [captured (tailOf stream)]

variable {line rest : Bytes}

theorem endedLines_of_not_mem (hline : newline ∉ line) : endedLines line = [] := by
  rw [endedLines, List.splitOn_eq_singleton hline]
  rfl

theorem tailOf_of_not_mem (hline : newline ∉ line) : tailOf line = line := by
  rw [tailOf, List.splitOn_eq_singleton hline]
  rfl

theorem splitOn_line (hline : newline ∉ line) :
    (line ++ newline :: rest).splitOn newline = line :: rest.splitOn newline := by
  rw [List.splitOn_append_cons_self, List.splitOn_eq_singleton hline, List.singleton_append]

theorem endedLines_line (hline : newline ∉ line) :
    endedLines (line ++ newline :: rest) = line :: endedLines rest := by
  rw [endedLines, splitOn_line hline, List.dropLast_cons_of_ne_nil (List.splitOn_ne_nil _ _)]
  rfl

theorem tailOf_line (hline : newline ∉ line) : tailOf (line ++ newline :: rest) = tailOf rest := by
  obtain ⟨piece, pieces, hpieces⟩ := List.exists_cons_of_ne_nil (List.splitOn_ne_nil newline rest)
  rw [tailOf, splitOn_line hline, tailOf, hpieces]
  simp

end Lines

section Feeding

/-- The capture once it has emitted these lines, in the middle of another. -/
def midLine (emitted : List Bytes) (line : Bytes) : Capture where
  buffer := line.take maxLineBytes
  dropped := line.length - maxLineBytes
  emitted := emitted

theorem take_kept (line more : Bytes) :
    (line.take maxLineBytes ++ more).take maxLineBytes = (line ++ more).take maxLineBytes := by
  have hroom : maxLineBytes - min maxLineBytes line.length = maxLineBytes - line.length := by
    omega
  rw [List.take_append, List.take_append, List.take_take, Nat.min_self, List.length_take, hroom]

/-- What is left of a line is emitted as the whole line would be. -/
theorem emitLine_midLine (emitted : List Bytes) (line more buffer : Bytes) (terminated : Bool) :
    Capture.emitLine { midLine emitted line with buffer := buffer }
        (line.take maxLineBytes ++ more) terminated =
      ⟨buffer, 0,
        emitted ++ [captured (line ++ more) ++ if terminated then [newline] else []]⟩ := by
  have hlength : (line.take maxLineBytes ++ more).length =
      min maxLineBytes line.length + more.length := by
    rw [List.length_append, List.length_take]
  have hwhole : (line ++ more).length = line.length + more.length := List.length_append
  have hclamped : (if maxLineBytes < (line.take maxLineBytes ++ more).length then
      (line.take maxLineBytes ++ more).take maxLineBytes
      else line.take maxLineBytes ++ more) = (line ++ more).take maxLineBytes := by
    rw [← take_kept line more]
    split
    next => rfl
    next hshort => rw [List.take_of_length_le (Nat.le_of_not_lt hshort)]
  have hmarked : (if 0 < line.length - maxLineBytes ∨
      maxLineBytes < (line.take maxLineBytes ++ more).length then
        (line ++ more).take maxLineBytes ++ truncated
      else (line ++ more).take maxLineBytes) = captured (line ++ more) := by
    rw [captured]
    by_cases hfits : (line ++ more).length ≤ maxLineBytes
    · rw [if_pos hfits, if_neg (by omega), List.take_of_length_le hfits]
    · rw [if_neg hfits, if_pos (by omega)]
  simp only [Capture.emitLine, midLine, hclamped, hmarked]
  cases terminated
  · rw [if_neg Bool.false_ne_true, if_neg Bool.false_ne_true, List.append_nil]
  · rw [if_pos rfl, if_pos rfl]

theorem drain_open {c : Capture} (hopen : newline ∉ c.buffer) :
    c.drain =
      if maxLineBytes < c.buffer.length then
        { c with
          dropped := c.dropped + (c.buffer.length - maxLineBytes)
          buffer := c.buffer.take maxLineBytes }
      else c := by
  have hnone : c.buffer.findIdx? (fun b => b == newline) = none := by
    rw [List.findIdx?_eq_none_iff]
    intro b hb
    rw [beq_eq_false_iff_ne]
    rintro rfl
    exact hopen hb
  rw [Capture.drain]
  split
  next => rfl
  next i hfind =>
    rw [hnone] at hfind
    cases hfind

theorem drain_line {c : Capture} {piece rest : Bytes} (hpiece : newline ∉ piece)
    (hbuffer : c.buffer = piece ++ newline :: rest) :
    c.drain = (Capture.emitLine { c with buffer := rest } piece true).drain := by
  have hsome : c.buffer.findIdx? (fun b => b == newline) = some piece.length := by
    rw [hbuffer, List.findIdx?_eq_some_iff_findIdx_eq, List.findIdx_append]
    have hnone : piece.findIdx (fun b => b == newline) = piece.length := by
      rw [List.findIdx_eq_length]
      intro b hb
      rw [beq_eq_false_iff_ne]
      rintro rfl
      exact hpiece hb
    simp [hnone, List.findIdx_cons]
  rw [Capture.drain]
  split
  next hfind =>
    rw [hsome] at hfind
    cases hfind
  next i hfind =>
    rw [hsome] at hfind
    cases hfind
    have hdrop : c.buffer.drop (piece.length + 1) = rest := by
      rw [hbuffer, List.drop_append, List.drop_of_length_le (Nat.le_succ _),
        Nat.add_sub_cancel_left]
      rfl
    have htake : c.buffer.take piece.length = piece := by
      rw [hbuffer, List.take_left]
    rw [hdrop, htake]

theorem not_mem_kept {line more : Bytes} (hline : newline ∉ line) (hmore : newline ∉ more) :
    newline ∉ line.take maxLineBytes ++ more := by
  rw [List.mem_append]
  rintro (hmem | hmem)
  · exact hline (List.mem_of_mem_take hmem)
  · exact hmore hmem

theorem feed_open (emitted : List Bytes) (line : Bytes) {chunk : Bytes} (hline : newline ∉ line)
    (hchunk : newline ∉ chunk) :
    (midLine emitted line).feed chunk = midLine emitted (line ++ chunk) := by
  have hlength : (line.take maxLineBytes ++ chunk).length =
      min maxLineBytes line.length + chunk.length := by
    rw [List.length_append, List.length_take]
  have hwhole : (line ++ chunk).length = line.length + chunk.length := List.length_append
  have hkept : newline ∉ (midLine emitted line).buffer ++ chunk := not_mem_kept hline hchunk
  rw [Capture.feed, drain_open hkept]
  show (if maxLineBytes < (line.take maxLineBytes ++ chunk).length then
      (⟨(line.take maxLineBytes ++ chunk).take maxLineBytes, line.length - maxLineBytes +
        ((line.take maxLineBytes ++ chunk).length - maxLineBytes), emitted⟩ : Capture)
    else ⟨line.take maxLineBytes ++ chunk, line.length - maxLineBytes, emitted⟩) =
      ⟨(line ++ chunk).take maxLineBytes, (line ++ chunk).length - maxLineBytes, emitted⟩
  by_cases hlong : maxLineBytes < (line.take maxLineBytes ++ chunk).length
  · rw [if_pos hlong]
    have hdropped : line.length - maxLineBytes +
        ((line.take maxLineBytes ++ chunk).length - maxLineBytes) =
          (line ++ chunk).length - maxLineBytes := by
      omega
    rw [hdropped, take_kept]
  · rw [if_neg hlong]
    have hdropped : line.length - maxLineBytes = (line ++ chunk).length - maxLineBytes := by
      omega
    have hbuffer : line.take maxLineBytes ++ chunk = (line ++ chunk).take maxLineBytes := by
      rw [← take_kept, List.take_of_length_le (Nat.le_of_not_lt hlong)]
    rw [hdropped, hbuffer]

theorem feed_line (emitted : List Bytes) (line : Bytes) {piece : Bytes} (hline : newline ∉ line)
    (hpiece : newline ∉ piece) (rest : Bytes) :
    (midLine emitted line).feed (piece ++ newline :: rest) =
      (midLine (emitted ++ [captured (line ++ piece) ++ [newline]]) []).feed rest := by
  have hbuffer : (midLine emitted line).buffer ++ (piece ++ newline :: rest) =
      (line.take maxLineBytes ++ piece) ++ newline :: rest := by
    rw [List.append_assoc]
    rfl
  have hemit := emitLine_midLine emitted line piece rest true
  rw [if_pos rfl] at hemit
  rw [Capture.feed, drain_line (not_mem_kept hline hpiece) hbuffer]
  exact congrArg Capture.drain hemit

theorem not_mem_tailOf (stream : Bytes) : newline ∉ tailOf stream := by
  induction stream using Lines.lines_induction newline with
  | last xs hxs => rwa [tailOf_of_not_mem hxs]
  | line xs ys hxs ih => rwa [tailOf_line hxs]

/-- A chunk ends the line it is in the middle of, and its own lines but the last. -/
theorem feed_midLine (emitted : List Bytes) {line : Bytes} (hline : newline ∉ line)
    (chunk : Bytes) :
    (midLine emitted line).feed chunk =
      midLine (emitted ++ (endedLines (line ++ chunk)).map fun ended => captured ended ++ [newline])
        (tailOf (line ++ chunk)) := by
  induction chunk using Lines.lines_induction newline generalizing emitted line with
  | last xs hxs =>
      have hwhole : newline ∉ line ++ xs := by
        rw [List.mem_append]
        exact not_or.mpr ⟨hline, hxs⟩
      rw [feed_open emitted line hline hxs, endedLines_of_not_mem hwhole,
        tailOf_of_not_mem hwhole, List.map_nil, List.append_nil]
  | line xs ys hxs ih =>
      have hwhole : newline ∉ line ++ xs := by
        rw [List.mem_append]
        exact not_or.mpr ⟨hline, hxs⟩
      rw [feed_line emitted line hline hxs, ih _ List.not_mem_nil, ← List.append_assoc,
        endedLines_line hwhole, tailOf_line hwhole, List.map_cons, List.nil_append,
        List.append_assoc, List.singleton_append]

theorem splitOn_append (stream chunk : Bytes) :
    endedLines (stream ++ chunk) = endedLines stream ++ endedLines (tailOf stream ++ chunk) ∧
      tailOf (stream ++ chunk) = tailOf (tailOf stream ++ chunk) := by
  induction stream using Lines.lines_induction newline with
  | last xs hxs =>
      rw [endedLines_of_not_mem hxs, tailOf_of_not_mem hxs]
      exact ⟨rfl, rfl⟩
  | line xs ys hxs ih =>
      rw [List.append_assoc, List.cons_append, endedLines_line hxs, endedLines_line hxs,
        tailOf_line hxs, tailOf_line hxs, ih.1, List.cons_append]
      exact ⟨rfl, ih.2⟩

/-- Where the chunks were cut leaves no trace. -/
theorem feed_chunks (chunks : List Bytes) :
    chunks.foldl Capture.feed {} =
      midLine ((endedLines chunks.flatten).map fun ended => captured ended ++ [newline])
        (tailOf chunks.flatten) := by
  induction chunks using List.reverseRecOn with
  | nil => rfl
  | append_singleton chunks chunk ih =>
      have hflatten : (chunks ++ [chunk]).flatten = chunks.flatten ++ chunk := by
        rw [List.flatten_append, List.flatten_singleton]
      have hsplit := splitOn_append chunks.flatten chunk
      rw [List.foldl_append, ih, List.foldl_cons, List.foldl_nil,
        feed_midLine _ (not_mem_tailOf _), hflatten, hsplit.1, hsplit.2, List.map_append]

theorem close_midLine (emitted : List Bytes) (line : Bytes) :
    (midLine emitted line).close.emitted =
      emitted ++ if line = [] then [] else [captured line] := by
  cases line with
  | nil => simp [midLine, Capture.close]
  | cons b bs =>
      have hne : (midLine emitted (b :: bs)).buffer ≠ [] := by
        rw [midLine, maxLineBytes, List.take_succ_cons]
        exact List.cons_ne_nil _ _
      have hemit := emitLine_midLine emitted (b :: bs) []
        ((b :: bs).take maxLineBytes) false
      rw [List.append_nil, List.append_nil, if_neg Bool.false_ne_true, List.append_nil] at hemit
      rw [Capture.close, if_neg hne, if_neg (List.cons_ne_nil _ _)]
      exact congrArg Capture.emitted hemit

/-- However a stream is cut into chunks, its capture is the capture of each of its lines, and the
buffer never holds more than one line may. -/
theorem lineCapture_exact (chunks : List Bytes) :
    (chunks.foldl Capture.feed {}).close.emitted = capturedLines chunks.flatten ∧
      ∀ n, ((chunks.take n).foldl Capture.feed {}).buffer.length ≤ maxLineBytes := by
  constructor
  · rw [feed_chunks, close_midLine, capturedLines]
  · intro n
    rw [feed_chunks, midLine, List.length_take]
    exact Nat.min_le_left _ _

end Feeding

end Trackinizer.LineCapture
