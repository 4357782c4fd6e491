import Trackinizer.UdiffFiles

namespace Trackinizer.Udiff

open Lines

variable {decimal : Char → Option Nat}

/-- The old lines from `pos` on under the splices: each stands for `count` of them from the
one-based `start` on. A splice without a count replaces nothing. -/
def applyFrom (old : List Text) (pos : Nat) : List Splice → Text
  | [] => (old.drop pos).flatten
  | splice :: splices =>
      match splice.start, splice.count with
      | some start, some count =>
          ((old.take (start - 1)).drop pos).flatten ++ splice.after.getD [] ++
            applyFrom old (start - 1 + count) splices
      | _, _ => applyFrom old pos splices

def applySplices (old : Text) (splices : List Splice) : Text :=
  applyFrom (lines '\n' old) 0 splices

theorem applyFrom_cons {old : List Text} {pos : Nat} {splice : Splice} (start count : Nat)
    (hstart : splice.start = some start) (hcount : splice.count = some count)
    (splices : List Splice) : applyFrom old pos (splice :: splices) =
      ((old.take (start - 1)).drop pos).flatten ++ splice.after.getD [] ++
        applyFrom old (start - 1 + count) splices := by
  rw [applyFrom, hstart, hcount]

/-- The first splice, if any, leaves the lines before `pos` as they are. -/
def Past (pos : Nat) (splices : List Splice) : Prop :=
  ∀ splice ∈ splices.head?, ∃ start count, splice.start = some start ∧
    splice.count = some count ∧ pos ≤ start - 1

theorem Past.mono {pos pos' : Nat} {splices : List Splice} (h : Past pos' splices)
    (hle : pos ≤ pos') : Past pos splices := by
  intro splice hsplice
  obtain ⟨start, count, hstart, hcount, hpast⟩ := h splice hsplice
  exact ⟨start, count, hstart, hcount, Nat.le_trans hle hpast⟩

/-- Lines that no splice is about come out first. -/
theorem applyFrom_past {old : List Text} {cursor : Nat} (pos : Nat) (hle : cursor ≤ pos)
    {splices : List Splice} (h : Past pos splices) :
    applyFrom old cursor splices =
      ((old.take pos).drop cursor).flatten ++ applyFrom old pos splices := by
  have hsplit (xs : List Text) (n : Nat) (hn : pos ≤ n) :
      (xs.take n).drop cursor = (xs.take pos).drop cursor ++ (xs.take n).drop pos := by
    have htake : (xs.take n).take pos = xs.take pos := by
      rw [List.take_take, Nat.min_eq_left hn]
    calc (xs.take n).drop cursor = ((xs.take n).take pos ++ (xs.take n).drop pos).drop cursor := by
          rw [List.take_append_drop]
      _ = (xs.take pos).drop cursor ++ (xs.take n).drop pos := by
          rw [htake]
          by_cases hlen : cursor ≤ (xs.take pos).length
          · rw [List.drop_append_of_le_length hlen]
          · have hshort : xs.length < pos := by
              rw [List.length_take] at hlen
              omega
            have hnone : (xs.take n).drop pos = [] := by
              rw [List.drop_eq_nil_iff, List.length_take]
              omega
            rw [hnone, List.append_nil, List.append_nil]
  cases splices with
  | nil =>
      have hall := hsplit old (max pos old.length) (by omega)
      rw [List.take_of_length_le (by omega)] at hall
      rw [applyFrom, applyFrom, hall, List.flatten_append]
  | cons splice splices =>
      obtain ⟨start, count, hstart, hcount, hpast⟩ := h splice rfl
      rw [applyFrom_cons start count hstart hcount, applyFrom_cons start count hstart hcount, hsplit old _ hpast,
        List.flatten_append]
      simp only [List.append_assoc]

/-- The lines from `pos` on begin with these. -/
theorem take_drop_lines {old : List Text} {pos : Nat} {ls : List Line} {behind : List Text}
    (h : old.drop pos = ls.map Line.text ++ behind) :
    ((old.take (pos + ls.length)).drop pos).flatten = fileText ls ∧
      old.drop (pos + ls.length) = behind := by
  constructor
  · have htake : (old.take (pos + ls.length)).drop pos = ls.map Line.text := by
      rw [List.drop_take, Nat.add_sub_cancel_left, h]
      exact List.take_left' (by simp)
    rw [htake, fileText, List.flatMap]
  · rw [← List.drop_drop, h]
    exact List.drop_left' (by simp)

theorem fileText_append (xs ys : List Line) : fileText (xs ++ ys) = fileText xs ++ fileText ys :=
  List.flatMap_append

/-- The text of a side's lines is what the splice of the side holds. -/
theorem bared_body {ls : List Line} (h : Lined ls) :
    (bared (joined (ls.map Line.body)) (openEnd ls)).getD [] = fileText ls := by
  rcases List.eq_nil_or_concat ls with rfl | ⟨init, last, rfl⟩
  · rfl
  · rw [List.concat_eq_append] at h ⊢
    have hinit : unlines '\n' (init.map Line.body) = fileText init := by
      rw [Lined, List.dropLast_concat] at h
      rw [unlines, List.flatMap_map, fileText]
      refine List.flatMap_congr fun line hline => ?_
      rw [Line.text, h line hline]
      rfl
    have hsome : joined ((init ++ [last]).map Line.body) =
        some (unlines '\n' ((init ++ [last]).map Line.body)) := if_neg (by simp)
    have htext : unlines '\n' ((init ++ [last]).map Line.body) =
        fileText init ++ last.body ++ ['\n'] := by
      rw [List.map_append, unlines_append, hinit]
      simp [unlines]
    have hlast : openEnd (init ++ [last]) = !last.ended := by simp [openEnd]
    rw [hsome, htext, hlast, fileText_append]
    cases hended : last.ended with
    | true => simp [bared, fileText, Line.text, hended]
    | false =>
        have hremove : removeNewline (fileText init ++ last.body ++ ['\n']) =
            fileText init ++ last.body := by
          rw [removeNewline, if_pos (List.suffix_append _ _), List.dropLast_concat]
        have hbody : fileText [last] = last.body := by simp [fileText, Line.text, hended]
        rw [hbody]
        exact hremove

section Runs

variable {old : List Text}

theorem past_splicesFrom {bare : Bool} {lead : List Text} {pos : Nat}
    {runs : List (Run decimal)} {splices : List Splice} (h : runs = [] → Past pos splices) :
    Past pos (splicesFrom bare lead (pos + 1) runs ++ splices) := by
  cases runs with
  | nil => exact h rfl
  | cons run runs =>
      intro splice hsplice
      cases hsplice
      exact ⟨pos + 1, run.removed.length, rfl, rfl, by omega⟩

/-- Under the splices of a hunk the old lines of its changes become the new ones. -/
theorem applyFrom_changes {changes : List Change} {behind : List Text} {pos : Nat}
    (hold : old.drop pos = (changes.flatMap Change.old).map Line.text ++ behind)
    (hadded : ∀ change ∈ changes, Lined change.added) (bare : Bool) (lead : List Text)
    {splices : List Splice} (hpast : Past (pos + (changes.flatMap Change.old).length) splices) :
    applyFrom old pos (splicesFrom bare lead (pos + 1)
        (changes.map (Change.toRun decimal)) ++ splices) =
      fileText (changes.flatMap Change.new) ++
        applyFrom old (pos + (changes.flatMap Change.old).length) splices := by
  induction changes generalizing pos lead with
  | nil => rfl
  | cons change changes ih =>
      have hlength : ((change :: changes).flatMap Change.old).length =
          change.removed.length + change.kept.length +
            (changes.flatMap Change.old).length := by
        rw [List.flatMap_cons, List.length_append, Change.old, List.length_append]
      rw [hlength] at hpast ⊢
      have hremoved : old.drop pos = change.removed.map Line.text ++
          (change.kept.map Line.text ++
            ((changes.flatMap Change.old).map Line.text ++ behind)) := by
        rw [hold]
        simp [Change.old]
      have hkept := (take_drop_lines hremoved).2
      obtain ⟨hkeptText, hrest⟩ := take_drop_lines hkept
      have hlines : (change.toRun decimal).removed.length = change.removed.length := by
        simp [Change.toRun]
      have hcontext : (change.toRun decimal).context.length = change.kept.length := by
        simp [Change.toRun]
      have hnext : pos + 1 + change.removed.length + change.kept.length =
          pos + change.removed.length + change.kept.length + 1 := by omega
      have hmore : pos + (change.removed.length + change.kept.length +
          (changes.flatMap Change.old).length) =
          pos + change.removed.length + change.kept.length +
            (changes.flatMap Change.old).length := by omega
      rw [hmore] at hpast ⊢
      have hafter : ((change.toRun decimal).splice lead (pos + 1)
          (if (changes.map (Change.toRun decimal)).isEmpty then
            (change.toRun decimal).context else [])
          (bare && (changes.map (Change.toRun decimal)).isEmpty)).after.getD [] =
          fileText change.added := bared_body (hadded change List.mem_cons_self)
      have hnone : ((old.take (pos + 1 - 1)).drop pos).flatten = [] := by
        rw [Nat.add_sub_cancel, List.drop_eq_nil_iff.mpr (by rw [List.length_take]; omega)]
        rfl
      rw [List.map_cons, splicesFrom, List.cons_append,
        applyFrom_cons (pos + 1) change.removed.length rfl (by
          rw [← hlines]
          rfl), hafter, hnone, List.nil_append, Nat.add_sub_cancel, hlines, hcontext, hnext,
        applyFrom_past (pos + change.removed.length + change.kept.length) (by omega)
          (past_splicesFrom fun hnil => ?_), hkeptText,
        ih hrest (fun change' h => hadded change' (List.mem_cons_of_mem _ h)) _ hpast]
      · simp [Change.new, fileText, List.append_assoc]
      · have hchanges : changes = [] := by simpa using hnil
        subst hchanges
        exact hpast.mono (by omega)

end Runs

end Trackinizer.Udiff
