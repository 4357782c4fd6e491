import Trackinizer.FileFollow
import Trackinizer.Lib.Window

namespace Trackinizer.Follow

open Lines Window

/-- The cursor has read `data`: it stands at its end, and holds the line that it does not
finish. -/
structure Cursor.Has (c : Cursor) (data : Bytes) : Prop where
  offset : c.offset = data.length
  seen : c.seen = data.rtake replacementWindow
  held : c.held = unfinished newline data

/-- The lines of `data` that a newline ends, decoded. -/
def decodedLines (data : Bytes) : List (List Char) :=
  (complete newline data).map Utf8.decode

/-- A chunk yields the lines it completes, and they carry the flag that was pending. -/
structure Cursor.Advanced (c : Cursor) (data chunk : Bytes) (c' : Cursor)
    (batch : List (List Char)) : Prop where
  has : c'.Has (data ++ chunk)
  lines : decodedLines (data ++ chunk) = decodedLines data ++ batch
  pending : c'.pendingRestart = if batch = [] then c.pendingRestart else false
  restarted : batch ≠ [] → c'.restarted = c.pendingRestart
  identity : c'.identity = c.identity

theorem Cursor.Has.advance {c : Cursor} {data : Bytes} (h : c.Has data) (chunk : Bytes) :
    c.Advanced data chunk (c.advance chunk).1 (c.advance chunk).2 := by
  have hdata := rdropWhile_append_unfinished newline data
  have hdone : Ended newline (data.rdropWhile fun b => b ≠ newline) := ended_rdropWhile newline data
  generalize (data.rdropWhile fun b => b ≠ newline) = done at hdata hdone
  have hraw : data ++ chunk = done ++ (unfinished newline data ++ chunk) := by
    rw [← List.append_assoc, hdata]
  have hlines : complete newline (data ++ chunk) =
      complete newline data ++ complete newline (unfinished newline data ++ chunk) := by
    have hold : complete newline data = complete newline done := by
      conv_lhs => rw [← hdata]
      rw [complete_append hdone, complete_of_not_mem (not_mem_unfinished data), List.append_nil]
    rw [hraw, complete_append hdone, hold]
  by_cases hchunk : chunk = []
  · subst hchunk
    rw [Cursor.advance, if_pos rfl]
    exact ⟨by rwa [List.append_nil], by simp, by simp, by simp, rfl⟩
  · have hhas : ∀ held restarted pending, held = unfinished newline (c.held ++ chunk) →
        ({ c with
          offset := c.offset + chunk.length
          seen := (c.seen ++ chunk).rtake replacementWindow
          held := held
          restarted := restarted
          pendingRestart := pending } : Cursor).Has (data ++ chunk) := by
      intro held restarted pending hheld
      refine ⟨?_, ?_, ?_⟩
      · dsimp only
        rw [List.length_append, ← h.offset]
      · dsimp only
        rw [h.seen, rtake_rtake_append]
      · rw [hheld, h.held, hraw, unfinished_append hdone]
    rw [Cursor.advance, if_neg hchunk]
    dsimp only
    split
    next hmem =>
      rw [h.held] at hmem ⊢
      have hcut := dropLast_append_unfinished hmem
      have hbatch : decodedLines (data ++ chunk) = decodedLines data ++
          (Utf8.decode ((unfinished newline data ++ chunk).rdropWhile
            fun b => b ≠ newline).dropLast).splitOn '\n' := by
        rw [decodedLines, hlines, List.map_append, Utf8.decode_splitOn]
        congr 1
        rw [← complete_append_cons (not_mem_unfinished _), hcut]
      have hne : (Utf8.decode ((unfinished newline data ++ chunk).rdropWhile
          fun b => b ≠ newline).dropLast).splitOn '\n' ≠ [] := List.splitOn_ne_nil _ _
      exact ⟨hhas _ _ _ (by rw [h.held]; rfl), hbatch, by rw [if_neg hne], fun _ => rfl, rfl⟩
    next hmem =>
      rw [h.held] at hmem
      have hbatch : decodedLines (data ++ chunk) = decodedLines data ++ [] := by
        rw [decodedLines, hlines, complete_of_not_mem hmem, List.append_nil, List.append_nil]
        rfl
      exact ⟨hhas _ _ _ rfl, hbatch, rfl, fun hne => absurd rfl hne, rfl⟩

/-- The cursor takes a file for replaced exactly when a replacement shows. -/
theorem Followed.replaced_iff {w : Followed} (h : w.cursor.Has w.read) (f : File) :
    w.cursor.replaced f = true ↔ w.Recognises f := by
  have hlength : w.cursor.seen.length = min w.read.length replacementWindow := by
    rw [h.seen, length_rtake]
  have hbefore : w.cursor.offset - w.cursor.seen.length = w.read.length - replacementWindow := by
    rw [h.offset, hlength]
    omega
  have hidentity : (w.cursor.identity.isSome && w.cursor.identity != some f.identity) = true ↔
      ∃ identity, w.cursor.identity = some identity ∧ identity ≠ f.identity := by
    cases w.cursor.identity with
    | none => simp
    | some identity => simp
  have hwindow : (w.cursor.offset != 0 && !w.cursor.continues f) = true ↔
      (f.content.drop (w.read.length - replacementWindow)).take
        (min w.read.length replacementWindow) ≠ w.read.rtake replacementWindow := by
    rw [Cursor.continues, hbefore, hlength, h.seen, h.offset]
    by_cases hempty : w.read = []
    · rw [hempty]
      simp [List.rtake]
    · have hpos : 0 < w.read.length := List.length_pos_iff.mpr hempty
      have hseen : w.read.rtake replacementWindow ≠ [] := by
        rw [← List.length_pos_iff, length_rtake]
        exact Nat.lt_min.mpr ⟨hpos, by decide⟩
      simp [hempty, hseen]
  rw [Cursor.replaced, Bool.or_eq_true, hidentity, hwindow]
  rfl

/-- What a run has shown is what its cursor and its file say. -/
structure FollowInv (w : Followed) : Prop where
  has : w.cursor.Has w.read
  lines : w.lines = decodedLines w.read
  due : w.cursor.pendingRestart = w.due
  same : w.swapped = false → ∀ f, w.file = some f →
    w.cursor.identity = some f.identity ∧ w.read <+: f.content

/-- A file put in the path's place since the last drain shows as a replacement, or the cursor
had read nothing of the one before. -/
def Followed.Shows (w : Followed) : Prop :=
  w.swapped = true → ∀ f, w.file = some f → w.read = [] ∨ w.Recognises f

/-- Every state of a run in which each drain after a replacement can recognise it. -/
inductive Reaches (file : Option File) : Followed → Prop where
  | start : Reaches file (.start file)
  | step (w : Followed) (event : Event) (h : Reaches file w)
      (hshows : event = .drain → w.Shows) : Reaches file (w.step event)

theorem followInv_start (file : Option File) : FollowInv (.start file) := by
  cases file with
  | none => exact ⟨⟨rfl, rfl, rfl⟩, rfl, rfl, fun _ f hf => by cases hf⟩
  | some f =>
      have hhas : (Cursor.start 0 (some f)).Has [] := by
        constructor
        · rfl
        · simp [Cursor.start, List.rtake]
        · rfl
      refine ⟨hhas, rfl, rfl, ?_⟩
      intro _ f' hf
      cases hf
      exact ⟨rfl, List.nil_prefix⟩

/-- One drain: the whole file is read, the lines since the last replacement are its complete
lines, and a batch carries the flag that was due. -/
structure Drained (w : Followed) (f : File) : Prop where
  inv : FollowInv (w.drain f)
  restarted : (w.cursor.drain (some f)).2 ≠ [] →
    (w.cursor.drain (some f)).1.restarted = (w.due || decide (w.Recognises f))

theorem drained_of_reopen {w : Followed} {f : File} {base : Bytes}
    (hhas : (w.cursor.reopen f).Has base) (hpre : base <+: f.content)
    (hlines : (if w.Recognises f then [] else w.lines) = decodedLines base)
    (hpending : (w.cursor.reopen f).pendingRestart = (w.due || decide (w.Recognises f)))
    (hidentity : (w.cursor.reopen f).identity = some f.identity) : Drained w f := by
  obtain ⟨chunk, hchunk⟩ := hpre
  have hread : f.content.drop (w.cursor.reopen f).offset = chunk := by
    rw [hhas.offset, ← hchunk, List.drop_left]
  have hdrain : w.cursor.drain (some f) = (w.cursor.reopen f).advance chunk := by
    rw [Cursor.drain, hread]
  have hadvanced := hhas.advance chunk
  rw [← hdrain] at hadvanced
  refine ⟨⟨?_, ?_, ?_, ?_⟩, ?_⟩
  · have hafter := hadvanced.has
    rwa [hchunk] at hafter
  · rw [Followed.drain]
    dsimp only
    rw [hlines, ← hadvanced.lines, hchunk]
  · rw [Followed.drain]
    dsimp only
    rw [hadvanced.pending, hpending]
  · intro _ f' hf'
    cases hf'
    exact ⟨hadvanced.identity.trans hidentity, List.prefix_rfl⟩
  · intro hne
    rw [hadvanced.restarted hne, hpending]

theorem FollowInv.drain {w : Followed} (h : FollowInv w) {f : File} (hfile : w.file = some f)
    (hshows : w.Shows) : Drained w f := by
  have hreplaced := Followed.replaced_iff h.has f
  by_cases hrecognises : w.Recognises f
  · have hreopen : w.cursor.reopen f =
        { offset := 0
          restarted := w.cursor.restarted
          pendingRestart := true
          identity := some f.identity } := by
      rw [Cursor.reopen, if_pos (hreplaced.mpr hrecognises)]
    apply @drained_of_reopen w f []
    · rw [hreopen]
      exact ⟨rfl, rfl, rfl⟩
    · exact List.nil_prefix
    · rw [if_pos hrecognises]
      rfl
    · rw [hreopen, decide_eq_true hrecognises, Bool.or_true]
    · rw [hreopen]
  · have hreopen : w.cursor.reopen f = { w.cursor with identity := some f.identity } := by
      rw [Cursor.reopen, if_neg (fun hrep => hrecognises (hreplaced.mp hrep))]
    have hpre : w.read <+: f.content := by
      cases hswapped : w.swapped with
      | false => exact (h.same hswapped f hfile).2
      | true =>
          rcases hshows hswapped f hfile with hnone | hshown
          · rw [hnone]
            exact List.nil_prefix
          · exact absurd hshown hrecognises
    apply @drained_of_reopen w f w.read
    · rw [hreopen]
      exact ⟨h.has.offset, h.has.seen, h.has.held⟩
    · exact hpre
    · rw [if_neg hrecognises, h.lines]
    · rw [hreopen, decide_eq_false hrecognises, Bool.or_false]
      exact h.due
    · rw [hreopen]

theorem FollowInv.step {w : Followed} (h : FollowInv w) (event : Event)
    (hshows : event = .drain → w.Shows) : FollowInv (w.step event) := by
  cases event with
  | append bytes =>
      refine ⟨h.has, h.lines, h.due, ?_⟩
      intro hswapped f' hf'
      obtain ⟨f, hf, rfl⟩ := Option.map_eq_some_iff.mp hf'
      obtain ⟨hidentity, hpre⟩ := h.same hswapped f hf
      exact ⟨hidentity, hpre.trans (List.prefix_append _ _)⟩
  | put f =>
      exact ⟨h.has, h.lines, h.due, fun hswapped => by cases hswapped⟩
  | remove => exact ⟨h.has, h.lines, h.due, fun _ f hf => by cases hf⟩
  | drain =>
      rw [Followed.step]
      split
      next => exact h
      next f hf => exact (h.drain hf (hshows rfl)).inv

theorem Reaches.inv {file : Option File} {w : Followed} (h : Reaches file w) : FollowInv w := by
  induction h with
  | start => exact followInv_start file
  | step w event _ hshows ih => exact ih.step event hshows

/-- After every drain that finds the file, the lines drained since the last replacement it
recognised are the decoded complete lines of the file; and of the lines that a drain yields
the first is flagged exactly when a replacement was recognised since the last batch. -/
theorem follow_exact {file : Option File} {w : Followed} (h : Reaches file w) {f : File}
    (hfile : w.file = some f) (hshows : w.Shows) :
    (w.step .drain).lines = (complete newline f.content).map Utf8.decode ∧
      (w.cursor.drain (some f)).1.lines (w.cursor.drain (some f)).2 =
        (w.cursor.drain (some f)).2.zipIdx.map fun line =>
          (line.1, (w.due || decide (w.Recognises f)) && line.2 == 0) := by
  have hdrained := h.inv.drain hfile hshows
  have hstep : w.step .drain = w.drain f := by
    rw [Followed.step, hfile]
  refine ⟨?_, ?_⟩
  · rw [hstep]
    exact hdrained.inv.lines
  · by_cases hbatch : (w.cursor.drain (some f)).2 = []
    · rw [hbatch]
      rfl
    · rw [Cursor.lines, hdrained.restarted hbatch]

/-- A file that was read up to an unfinished line, and another put in its place. -/
def replacedRun : Followed :=
  ((Followed.start (some ⟨(1, 1), [97, 10, 98]⟩)).step .drain).step (.put ⟨(1, 2), [99, 10]⟩)

theorem follow_exact_replaced :
    (replacedRun.step .drain).lines = (complete newline [99, 10]).map Utf8.decode ∧
      (replacedRun.cursor.drain (some ⟨(1, 2), [99, 10]⟩)).1.lines
          (replacedRun.cursor.drain (some ⟨(1, 2), [99, 10]⟩)).2 =
        (replacedRun.cursor.drain (some ⟨(1, 2), [99, 10]⟩)).2.zipIdx.map fun line =>
          (line.1, (replacedRun.due || decide (replacedRun.Recognises ⟨(1, 2), [99, 10]⟩)) &&
            line.2 == 0) := by
  have hdrain : Followed.Shows (.start (some ⟨(1, 1), [97, 10, 98]⟩)) :=
    fun hswapped => by cases hswapped
  have hreaches : Reaches (some ⟨(1, 1), [97, 10, 98]⟩) replacedRun :=
    .step _ _ (.step _ _ .start fun _ => hdrain) fun hput => by cases hput
  have hshows : replacedRun.Shows := by
    intro _ f hf
    cases hf
    exact Or.inr (Or.inl ⟨(1, 1), rfl, by decide⟩)
  exact follow_exact hreaches rfl hshows

end Trackinizer.Follow
