import Trackinizer.JournalReads

namespace Trackinizer.Jsonl

open Lines

section Runs

variable {R : Type} {c : Codec R} {j : Journal R}

/-- The numbered part of the file ends a line, or the part behind it opens with the newline
that ends one. -/
def Seam (xs ys : Bytes) : Prop :=
  Ended newline xs ∨ ∃ rest, ys = newline :: rest

theorem Codec.read_seam (c : Codec R) {xs ys : Bytes} (h : Seam xs ys) :
    c.read (xs ++ ys) = c.read xs ++ c.read ys := by
  rcases h with hended | ⟨rest, rfl⟩
  · exact c.read_append hended ys
  · exact c.read_append_newline xs rest

theorem marks_seam {xs ys : Bytes} (h : Seam xs ys) (offset : Nat) :
    marks newline nonblank offset (xs ++ ys) =
      marks newline nonblank offset xs ++ marks newline nonblank (offset + xs.length) ys := by
  rcases h with hended | ⟨rest, rfl⟩
  · exact marks_append nonblank_nil hended offset ys
  · exact marks_append_sep nonblank_nil offset xs rest

/-- What the journal holds of its file is right about `data`. -/
structure Numbers (c : Codec R) (j : Journal R) (data : Bytes) : Prop where
  starts : j.starts = (marks newline nonblank 0 data).map Prod.fst
  window : j.window = c.fromLastClear (c.read data)
  size : j.size = data.length

/-- The number of a record is where it stands among the records of the numbered part. -/
theorem Numbers.first_le {data : Bytes} (h : Numbers c j data) {start : Nat}
    (hstart : start < (c.read data).length) :
    ∃ before rest, data = before ++ rest ∧ Ended newline before ∧
      j.starts.getD start 0 = before.length ∧ (c.read before).length = start := by
  rw [c.length_read 0] at hstart
  have hmark := List.getElem?_eq_getElem hstart
  obtain ⟨before, rest, hdata, hended, hoffset, hcount⟩ := marks_getElem? nonblank_nil hmark
  refine ⟨before, rest, hdata, hended, ?_, ?_⟩
  · rw [h.starts, List.getD_eq_getElem?_getD, List.getElem?_map, hmark, Option.map_some,
      Option.getD_some]
    exact hoffset.trans (Nat.zero_add _)
  · rw [c.length_read 0, hcount]

/-- `history` serves the records of the numbered part, those before the window from the
file and the rest from memory. -/
theorem Numbers.history {data later : Bytes} (h : Numbers c j data) (hfile : j.file = data ++ later)
    (start : Nat) : j.history c start = (c.read data).drop start := by
  have hlength : j.starts.length = (c.read data).length := by
    rw [h.starts, List.length_map, c.length_read 0]
  have hsuffix : j.window <:+ c.read data := by
    rw [h.window]
    exact c.fromLastClear_suffix _
  have hwindow : j.window = (c.read data).drop (j.starts.length - j.window.length) := by
    rw [hlength]
    exact List.suffix_iff_eq_drop.mp hsuffix
  have hle : j.window.length ≤ (c.read data).length := hsuffix.length_le
  unfold Journal.history
  dsimp only
  generalize hfirst : j.starts.length - j.window.length = first at hwindow
  split
  next hstart =>
    rw [hwindow, List.drop_drop]
    congr 1
    omega
  next hstart =>
    have hbefore : start < (c.read data).length := by omega
    obtain ⟨before, rest, hdata, hended, hbegin, hcount⟩ := h.first_le hbefore
    obtain ⟨shown, hidden, hshown, hstop, hfirst', hcut⟩ : ∃ shown hidden,
        data = shown ++ hidden ∧
          (if first < j.starts.length then j.starts.getD first 0 else j.size) = shown.length ∧
          (c.read shown).length = first ∧ (Ended newline shown ∨ hidden = []) := by
      split
      next hmany =>
        rw [hlength] at hmany
        obtain ⟨shown, hidden, hshown, hended', hstop, hcount'⟩ := h.first_le hmany
        exact ⟨shown, hidden, hshown, hstop, hcount', Or.inl hended'⟩
      next hnone =>
        exact ⟨data, [], (List.append_nil _).symm, h.size, by omega, Or.inr rfl⟩
    have hread : c.read data = c.read shown ++ c.read hidden := by
      rcases hcut with hended' | rfl
      · rw [hshown, c.read_append hended']
      · rw [hshown, List.append_nil, c.read_nil, List.append_nil]
    have hstart_of : before <+: shown := by
      apply List.prefix_of_prefix_length_le ⟨rest, hdata.symm⟩ ⟨hidden, hshown.symm⟩
      by_contra hlong
      rcases hcut with hended' | rfl
      · obtain ⟨extra, rfl⟩ : shown <+: before := List.prefix_of_prefix_length_le
          ⟨hidden, hshown.symm⟩ ⟨rest, hdata.symm⟩ (by omega)
        rw [c.read_append hended', List.length_append] at hcount
        omega
      · have hshort : before.length ≤ data.length := by
          rw [hdata, List.length_append]
          omega
        rw [List.append_nil] at hshown
        exact hlong (hshown ▸ hshort)
    obtain ⟨middle, hmiddle⟩ := hstart_of
    have hrange : (j.file.drop before.length).take (shown.length - before.length) = middle := by
      rw [hfile, hshown, ← hmiddle, List.append_assoc, List.append_assoc, List.drop_left]
      have hshort : (before ++ middle).length - before.length = middle.length := by
        rw [List.length_append]
        omega
      rw [hshort, List.take_left]
    have hmid : c.read shown = c.read before ++ c.read middle := by
      rw [← hmiddle, c.read_append hended]
    have hzero : start - first = 0 := by omega
    rw [hbegin, hstop, hrange, hzero, List.drop_zero, hwindow, hread, hmid, ← hfirst', hmid]
    rw [List.drop_left, List.append_assoc, ← hcount, List.drop_left]

/-- A loop of writes stores a beginning of its bytes, all of them exactly when it ends. -/
theorem writeRest_spec (writes : List WriteResult) (bytes : Bytes) :
    ∃ rest, bytes = (writeRest writes bytes).1 ++ rest ∧
      ((writeRest writes bytes).2 = true ↔ rest = []) := by
  induction writes generalizing bytes with
  | nil =>
      cases bytes with
      | nil => exact ⟨[], rfl, by simp [writeRest]⟩
      | cons b bytes => exact ⟨b :: bytes, rfl, by simp [writeRest]⟩
  | cons write writes ih =>
      cases bytes with
      | nil => exact ⟨[], rfl, by simp [writeRest]⟩
      | cons b bytes =>
          cases write with
          | raised => exact ⟨b :: bytes, rfl, by simp [writeRest]⟩
          | wrote n =>
              by_cases hn : n = 0
              · exact ⟨b :: bytes, by simp [writeRest, hn], by simp [writeRest, hn]⟩
              · obtain ⟨rest, hrest, hdone⟩ := ih ((b :: bytes).drop n)
                refine ⟨rest, ?_, ?_⟩
                · rw [writeRest, if_neg hn]
                  dsimp only
                  rw [List.append_assoc, ← hrest, List.take_append_drop]
                · rw [writeRest, if_neg hn]
                  exact hdone

/-- The journal has numbered its file up to a seam. -/
def Sync (c : Codec R) (j : Journal R) : Prop :=
  ∃ data later, j.file = data ++ later ∧ Numbers c j data ∧ Seam data later

/-- What `_write` does before it writes: the whole file is numbered, and an ending is due
exactly when the file does not stop at the end of a line. -/
structure Recovered (c : Codec R) (j : Journal R) : Prop where
  file : (j.recover c).1.file = j.file
  numbers : Numbers c (j.recover c).1 j.file
  ending : (j.recover c).2 = [] ∧ Ended newline j.file ∨
    (j.recover c).2 = [newline] ∧ ¬ Ended newline j.file ∧ j.size ≠ j.file.length

theorem Sync.recover (h : Sync c j) : Recovered c j := by
  obtain ⟨data, later, hfile, hnumbers, hseam⟩ := h
  have hlength : j.file.length = data.length + later.length := by
    rw [hfile, List.length_append]
  by_cases hlater : later = []
  · have hdata : j.file = data := by rw [hfile, hlater, List.append_nil]
    have hsame : j.recover c = (j, []) := by
      rw [Journal.recover, if_pos (by rw [hdata, hnumbers.size])]
    have hended : Ended newline data := by
      rcases hseam with hended | ⟨rest, hrest⟩
      · exact hended
      · rw [hlater] at hrest
        cases hrest
    rw [hlater, List.append_nil] at hfile
    refine ⟨by rw [hsame], ?_, Or.inl ⟨by rw [hsame], hdata ▸ hended⟩⟩
    rw [hsame, hdata]
    exact hnumbers
  · have hne : j.file.length ≠ j.size := by
      have hpos : 0 < later.length := List.length_pos_iff.mpr hlater
      rw [hlength, hnumbers.size]
      omega
    have hrest : j.file.drop j.size = later := by
      rw [hfile, hnumbers.size, List.drop_left]
    have htaken : later.take (j.size + later.length - j.size) = later := by
      rw [Nat.add_sub_cancel_left, List.take_length]
    have hread : c.read j.file = c.read data ++ c.read later := by
      rw [hfile, c.read_seam hseam]
    have hlast : j.file[j.size + later.length - 1]? = j.file.getLast? := by
      rw [List.getLast?_eq_getElem?, hlength, hnumbers.size]
    have hempty : j.file ≠ [] := by
      rw [hfile]
      simp [hlater]
    have hrecover : j.recover c = ({ j with
        window := c.keep j.window (c.read later)
        starts := j.starts ++ (marks newline nonblank j.size later).map Prod.fst
        size := j.size + later.length },
          if j.file.getLast? = some newline then [] else [newline]) := by
      rw [Journal.recover, if_neg hne]
      dsimp only
      rw [hrest, lineStarts_eq]
      dsimp only
      rw [htaken, hlast]
    refine ⟨by rw [hrecover], ?_, ?_⟩
    · rw [hrecover]
      refine ⟨?_, ?_, ?_⟩
      · dsimp only
        rw [hfile, marks_seam hseam, List.map_append, hnumbers.starts, hnumbers.size, Nat.zero_add]
      · dsimp only
        rw [hnumbers.window, c.keep_fromLastClear, hread]
      · dsimp only
        rw [hlength, hnumbers.size]
    · rw [hrecover]
      dsimp only
      split
      next hends => exact Or.inl ⟨rfl, ended_iff_getLast?.mpr (Or.inr hends)⟩
      next htorn =>
        refine Or.inr ⟨rfl, ?_, Ne.symm hne⟩
        intro hended
        exact (ended_iff_getLast?.mp hended).elim hempty htorn

theorem ended_lines (records : List R) :
    Ended newline (records.map c.recordLine).flatten := by
  induction records with
  | nil => exact Or.inl rfl
  | cons r records ih =>
      have hended : Ended newline (c.recordLine r) := ended_append_sep newline _
      exact hended.append ih

theorem startsOf_eq (offset : Nat) (records : List R) :
    startsOf offset (records.map c.recordLine) =
      ((marks newline nonblank offset (records.map c.recordLine).flatten).map Prod.fst,
        offset + (records.map c.recordLine).flatten.length) := by
  have hfold : ∀ starts offset, (records.map c.recordLine).foldl
      (fun (index : List Nat × Nat) (line : Bytes) =>
        (index.1 ++ [index.2], index.2 + line.length)) (starts, offset) =
      (starts ++ (marks newline nonblank offset (records.map c.recordLine).flatten).map Prod.fst,
        offset + (records.map c.recordLine).flatten.length) := by
    induction records with
    | nil =>
        intro starts offset
        simp [marks_nil nonblank_nil]
    | cons r records ih =>
        intro starts offset
        have hended : Ended newline (c.recordLine r) := ended_append_sep newline _
        have hmark : marks newline nonblank offset (c.recordLine r) = [(offset, c.line r)] := by
          obtain ⟨b, rest, hline, hspace⟩ := c.opens r
          apply marks_line nonblank_nil (c.newline_not_mem r)
          rw [hline, nonblank, List.any_cons, hspace]
          rfl
        rw [List.map_cons, List.foldl_cons, ih, List.flatten_cons, marks_append nonblank_nil hended,
          hmark, List.length_append]
        simp [Nat.add_assoc]
  exact hfold [] offset

/-- The records come back from their lines as they were. -/
def Codec.ReadsBack (c : Codec R) (records : List R) : Prop :=
  ∀ r ∈ records, c.reread r = r

theorem Codec.readsBack_iff {records : List R} :
    c.ReadsBack records ↔ records.map c.reread = records := by
  constructor
  · intro h
    exact (List.map_congr_left h).trans (List.map_id' _)
  · intro h
    exact List.map_inj_left.mp (h.trans (List.map_id' _).symm)

/-- The call finds a torn last line, and raises before it has ended that line. -/
def LosesEnding (c : Codec R) (j : Journal R) (call : Call R) : Prop :=
  j.size ≠ j.file.length ∧ ¬ Ended newline j.file ∧
    (writeRest call.writes (newline :: call.bytes c)).1 = []

/-- A call that returned: its lines end the file and are numbered, and the window has the records
that it was given. -/
structure Stored (c : Codec R) (j j' : Journal R) (records : List R) : Prop where
  starts : j'.starts = (marks newline nonblank 0 j'.file).map Prod.fst
  size : j'.size = j'.file.length
  window : j'.window = c.fromLastClear (c.read j.file ++ records)
  ended : Ended newline j'.file
  read : c.read j'.file = c.read j.file ++ records.map c.reread

theorem Stored.numbers {j' : Journal R} {records : List R} (h : Stored c j j' records)
    (hback : c.ReadsBack records) : Numbers c j' j'.file := by
  refine ⟨h.starts, ?_, h.size⟩
  rw [h.window, h.read, Codec.readsBack_iff.mp hback]

/-- What one call does to the file and to what the journal holds of it. -/
structure Appended (c : Codec R) (j : Journal R) (call : Call R) : Prop where
  returned : (j.append c call).2 = true → Stored c j (j.append c call).1 call.records
  raised : (j.append c call).2 = false →
    Numbers c (j.append c call).1 j.file ∧ ∃ torn,
      torn = (writeRest call.writes ((j.recover c).2 ++ call.bytes c)).1 ∧
        (j.append c call).1.file = j.file ++ torn ∧
          (¬ LosesEnding c j call → Seam j.file torn)

theorem Recovered.ended (h : Recovered c j) : Ended newline (j.file ++ (j.recover c).2) := by
  rcases h.ending with ⟨hnone, hended⟩ | ⟨hdue, _, _⟩
  · rwa [hnone, List.append_nil]
  · rw [hdue]
    exact ended_append_sep newline _

/-- To end a torn line makes no new line. -/
theorem Recovered.marks_ending (h : Recovered c j) :
    marks newline nonblank 0 (j.file ++ (j.recover c).2) = marks newline nonblank 0 j.file := by
  rcases h.ending with ⟨hnone, _⟩ | ⟨hdue, _, _⟩
  · rw [hnone, List.append_nil]
  · rw [hdue, marks_ended nonblank_nil]

theorem Recovered.read_ending (h : Recovered c j) :
    c.read (j.file ++ (j.recover c).2) = c.read j.file := by
  rw [c.read_eq_marks 0, h.marks_ending, ← c.read_eq_marks]

/-- A call that stores all that it is given. -/
theorem Recovered.returned (h : Recovered c j) {call : Call R}
    (hwritten : (writeRest call.writes ((j.recover c).2 ++ call.bytes c)).2 = true) :
    (j.append c call).2 = true ∧ Stored c j (j.append c call).1 call.records := by
  have hended := h.ended
  have hmarks := h.marks_ending
  have hread := h.read_ending
  obtain ⟨hfile, hnumbers, -⟩ := h
  obtain ⟨rest, hbytes, hdone⟩ :=
    writeRest_spec call.writes ((j.recover c).2 ++ call.bytes c)
  rw [hdone.mp hwritten, List.append_nil] at hbytes
  have happend : j.append c call = ({
      file := j.file ++ ((j.recover c).2 ++ call.bytes c)
      window := c.keep (j.recover c).1.window call.records
      starts := (j.recover c).1.starts ++
        (startsOf ((j.recover c).1.size + (j.recover c).2.length)
          (call.records.map c.recordLine)).1
      size := (startsOf ((j.recover c).1.size + (j.recover c).2.length)
        (call.records.map c.recordLine)).2 }, true) := by
    rw [Journal.append]
    dsimp only
    rw [if_pos hwritten, hfile, ← hbytes]
  have hlines : c.read (call.bytes c) = call.records.map c.reread := c.read_lines call.records
  rw [happend]
  refine ⟨rfl, ?_, ?_, ?_, ?_, ?_⟩
  · rw [startsOf_eq]
    dsimp only
    rw [← List.append_assoc, marks_append nonblank_nil hended, hmarks, List.map_append,
      hnumbers.starts, hnumbers.size, List.length_append, Nat.zero_add]
    rfl
  · rw [startsOf_eq]
    dsimp only
    rw [hnumbers.size, ← List.append_assoc, List.length_append, List.length_append]
    rfl
  · dsimp only
    rw [hnumbers.window, c.keep_fromLastClear]
  · dsimp only
    rw [← List.append_assoc]
    exact hended.append (ended_lines call.records)
  · dsimp only
    rw [← List.append_assoc, c.read_append hended, hread, hlines]

/-- A call that raises: what it left is not numbered, and it starts a line of its own unless it lost
the ending of the line before. -/
theorem Recovered.raised (h : Recovered c j) {call : Call R}
    (hwritten : (writeRest call.writes ((j.recover c).2 ++ call.bytes c)).2 = false) :
    (j.append c call).2 = false ∧ Numbers c (j.append c call).1 j.file ∧
      (j.append c call).1.file =
        j.file ++ (writeRest call.writes ((j.recover c).2 ++ call.bytes c)).1 ∧
      (¬ LosesEnding c j call →
        Seam j.file (writeRest call.writes ((j.recover c).2 ++ call.bytes c)).1) := by
  obtain ⟨hfile, hnumbers, hending⟩ := h
  obtain ⟨rest, hbytes, -⟩ := writeRest_spec call.writes ((j.recover c).2 ++ call.bytes c)
  have happend : j.append c call = ({ (j.recover c).1 with
      file := j.file ++ (writeRest call.writes ((j.recover c).2 ++ call.bytes c)).1 },
        false) := by
    rw [Journal.append]
    dsimp only
    rw [hwritten, hfile]
    rfl
  rw [happend]
  refine ⟨rfl, ⟨hnumbers.starts, hnumbers.window, hnumbers.size⟩, rfl, fun hkept => ?_⟩
  rcases hending with ⟨_, hended⟩ | ⟨hdue, htorn, hsize⟩
  · exact Or.inl hended
  · right
    rw [hdue, List.singleton_append] at hbytes ⊢
    cases hstored : (writeRest call.writes (newline :: call.bytes c)).1 with
    | nil => exact absurd ⟨hsize, htorn, hstored⟩ hkept
    | cons b stored =>
        rw [hstored] at hbytes
        have hb : newline = b := (List.cons.inj hbytes).1
        exact ⟨stored, by rw [hb]⟩

theorem Sync.append (h : Sync c j) (call : Call R) : Appended c j call := by
  have hrecovered := h.recover
  cases hwritten : (writeRest call.writes ((j.recover c).2 ++ call.bytes c)).2 with
  | true =>
      obtain ⟨hreturned, hstored⟩ := hrecovered.returned hwritten
      refine ⟨fun _ => hstored, fun hraised => ?_⟩
      rw [hreturned] at hraised
      cases hraised
  | false =>
      obtain ⟨hraised, hnumbers, hfile, hseam⟩ := hrecovered.raised hwritten
      refine ⟨fun hreturned => ?_, fun _ => ⟨hnumbers, _, rfl, hfile, hseam⟩⟩
      rw [hraised] at hreturned
      cases hreturned

/-- The journal shows the records of `data`: those of `history`, and its window. -/
def Shows (c : Codec R) (j : Journal R) (data : Bytes) : Prop :=
  (∀ start, j.history c start = (c.read data).drop start) ∧
    j.window = c.fromLastClear (c.read data)

/-- The journal shows its file as a fresh open would. -/
def Exact (c : Codec R) (j : Journal R) : Prop :=
  Shows c j j.file

theorem Numbers.shows {data later : Bytes} (h : Numbers c j data) (hfile : j.file = data ++ later) :
    Shows c j data :=
  ⟨h.history hfile, h.window⟩

theorem Numbers.exact (h : Numbers c j j.file) : Exact c j :=
  h.shows (List.append_nil _).symm

/-- `P` holds of every call of the run, and of the journal it was made on. -/
def Journal.Each (c : Codec R) (P : Journal R → Call R → Prop) : Journal R → List (Call R) → Prop
  | _, [] => True
  | j, call :: calls => P j call ∧ Journal.Each c P (j.append c call).1 calls

/-- The file has, in order, the records it had and those of every call that returned. -/
def NoneLost (c : Codec R) (j : Journal R) (calls : List (Call R)) : Prop :=
  (c.read j.file ++ j.returned c calls).Sublist (c.read (j.run c calls).file)

/-- The call stores none of its bytes, or all of its lines, and these read back. -/
def Call.Clean (c : Codec R) (call : Call R) : Prop :=
  (writeRest call.writes (call.bytes c)).1 = [] ∨
    (writeRest call.writes (call.bytes c)).2 = true ∧ c.ReadsBack call.records

/-- The call ends the torn line that it finds, and what it stores reads back. -/
def Keeps (c : Codec R) (j : Journal R) (call : Call R) : Prop :=
  ¬ LosesEnding c j call ∧ ((j.append c call).2 = true → c.ReadsBack call.records)

theorem openJournal_spec (c : Codec R) (file : Bytes) :
    Numbers c (openJournal c file) (openJournal c file).file ∧
      Ended newline (openJournal c file).file := by
  refine ⟨⟨?_, ?_, ?_⟩, ?_⟩
  · simp only [openJournal, lineStarts_eq]
  · simp only [openJournal, c.lastWindow_eq]
  · simp only [openJournal, lineStarts_eq, Nat.zero_add]
  · unfold openJournal
    dsimp only
    split
    next => exact ended_append_sep newline _
    next hended =>
      apply ended_iff_getLast?.mpr
      by_cases hempty : file = []
      · exact Or.inl hempty
      · exact Or.inr (by simpa [hempty] using hended)

theorem Sync.of_numbers (h : Numbers c j j.file) (hended : Ended newline j.file) : Sync c j :=
  ⟨j.file, [], (List.append_nil _).symm, h, Or.inl hended⟩

/-- A call that does not lose an ending leaves the file numbered up to a seam, and its
records added to what the file had. -/
theorem Sync.step (h : Sync c j) {call : Call R} (hkept : Keeps c j call) :
    Sync c (j.append c call).1 ∧
      (c.read j.file ++ if (j.append c call).2 then call.records else []).Sublist
        (c.read (j.append c call).1.file) := by
  have happend := h.append call
  cases hcall : (j.append c call).2 with
  | true =>
      have hstored := happend.returned hcall
      have hback := hkept.2 hcall
      refine ⟨Sync.of_numbers (hstored.numbers hback) hstored.ended, ?_⟩
      rw [hstored.read, Codec.readsBack_iff.mp hback]
      exact List.Sublist.refl _
  | false =>
      obtain ⟨hnumbers, torn, _, hfile, hseam⟩ := happend.raised hcall
      refine ⟨⟨j.file, torn, hfile, hnumbers, hseam hkept.1⟩, ?_⟩
      rw [hfile, c.read_seam (hseam hkept.1)]
      exact List.Sublist.append_left (List.nil_sublist _) _

theorem Sync.noneLost (h : Sync c j) {calls : List (Call R)}
    (hkept : j.Each c (Keeps c) calls) : NoneLost c j calls := by
  have hrun : ∀ records : List R, records.Sublist (c.read j.file) →
      (records ++ j.returned c calls).Sublist (c.read (j.run c calls).file) := by
    induction calls generalizing j with
    | nil =>
        intro records hrecords
        rw [Journal.returned, List.append_nil]
        exact hrecords
    | cons call calls ih =>
        intro records hrecords
        obtain ⟨hcall, hcalls⟩ := hkept
        obtain ⟨hsync, hadded⟩ := h.step hcall
        rw [Journal.returned, ← List.append_assoc]
        exact ih hsync hcalls _ ((hrecords.append_right _).trans hadded)
  exact hrun _ (List.Sublist.refl _)

/-- Every call that returned leaves the journal exact; one that raised leaves it as the file
was before it. -/
theorem Sync.recovers (h : Sync c j) {calls : List (Call R)}
    (hkept : j.Each c (Keeps c) calls) :
    j.Each c (fun j call =>
      if (j.append c call).2 then Exact c (j.append c call).1
      else Shows c (j.append c call).1 j.file) calls := by
  induction calls generalizing j with
  | nil => trivial
  | cons call calls ih =>
      obtain ⟨hcall, hcalls⟩ := hkept
      refine ⟨?_, ih (h.step hcall).1 hcalls⟩
      dsimp only
      split
      next hreturned =>
        exact (((h.append call).returned hreturned).numbers (hcall.2 hreturned)).exact
      next hraised =>
        obtain ⟨hnumbers, torn, _, hfile, _⟩ :=
          (h.append call).raised (Bool.eq_false_iff.mpr hraised)
        exact hnumbers.shows hfile

/-- The bytes of a record do not read as nothing. -/
theorem Codec.read_ne_nil (c : Codec R) {b : UInt8} {rest : Bytes} (h : isSpace b = false) :
    c.read (b :: rest) ≠ [] := by
  obtain ⟨piece, pieces, hsplit⟩ :=
    List.exists_cons_of_ne_nil (List.splitOn_ne_nil newline rest)
  have hb : (b == newline) = false := by
    rw [beq_eq_false_iff_ne]
    rintro rfl
    cases h
  have hkept : nonblank (b :: piece) = true := by
    rw [nonblank, List.any_cons, h]
    rfl
  rw [Codec.read, List.splitOn_cons_eq_if_modifyHead, hb, hsplit]
  simp [hkept]

theorem Call.bytes_head {call : Call R} {b : UInt8} {rest : Bytes}
    (h : call.bytes c = b :: rest) : isSpace b = false := by
  unfold Call.bytes at h
  cases hrecords : call.records with
  | nil =>
      rw [hrecords] at h
      cases h
  | cons r records =>
      obtain ⟨first, line, hline, hspace⟩ := c.opens r
      rw [hrecords, List.map_cons, List.flatten_cons, Codec.recordLine, hline] at h
      rw [← (List.cons.inj h).1]
      exact hspace

/-- On an ended, numbered file a call returns exactly when it has stored all of its lines. -/
theorem append_returned (h : Numbers c j j.file) (hended : Ended newline j.file) (call : Call R) :
    (j.append c call).2 = (writeRest call.writes (call.bytes c)).2 ∧
      (writeRest call.writes ((j.recover c).2 ++ call.bytes c)).1 =
        (writeRest call.writes (call.bytes c)).1 := by
  have hending : (j.recover c).2 = [] := by
    rcases (Sync.of_numbers h hended).recover.ending with ⟨hnone, _⟩ | ⟨_, htorn, _⟩
    · exact hnone
    · exact absurd hended htorn
  refine ⟨?_, by rw [hending, List.nil_append]⟩
  rw [Journal.append, hending, List.nil_append]
  dsimp only
  split
  next hdone => exact hdone.symm
  next hraised => exact (Bool.eq_false_iff.mpr hraised).symm

theorem Call.Clean.step (h : Numbers c j j.file) (hended : Ended newline j.file) {call : Call R}
    (hclean : call.Clean c) : Keeps c j call ∧
      Numbers c (j.append c call).1 (j.append c call).1.file ∧
        Ended newline (j.append c call).1.file := by
  obtain ⟨hreturned, hwritten⟩ := append_returned h hended call
  have happend := (Sync.of_numbers h hended).append call
  have hback : (j.append c call).2 = true → c.ReadsBack call.records := by
    intro hcall
    rcases hclean with hnone | ⟨_, hback⟩
    · obtain ⟨rest, hbytes, hdone⟩ := writeRest_spec call.writes (call.bytes c)
      rw [hnone, hdone.mp (hreturned.symm.trans hcall)] at hbytes
      cases hrecords : call.records with
      | nil =>
          intro r hr
          cases hr
      | cons r records =>
          rw [Call.bytes, hrecords, List.map_cons, List.flatten_cons, Codec.recordLine] at hbytes
          simp at hbytes
    · exact hback
  refine ⟨⟨fun hloses => hloses.2.1 hended, hback⟩, ?_⟩
  cases hcall : (j.append c call).2 with
  | true =>
      have hstored := happend.returned hcall
      exact ⟨hstored.numbers (hback hcall), hstored.ended⟩
  | false =>
      obtain ⟨hnumbers, torn, htorn, hfile, _⟩ := happend.raised hcall
      have hempty : torn = [] := by
        rcases hclean with hnone | ⟨hdone, _⟩
        · rw [htorn, hwritten, hnone]
        · rw [← hreturned, hcall] at hdone
          cases hdone
      rw [hempty, List.append_nil] at hfile
      rw [hfile]
      exact ⟨hnumbers, hended⟩

/-- A call that leaves an ended, numbered file exact leaves it ended and numbered, and has stored
all of its lines or none of their bytes. -/
theorem Exact.step (h : Numbers c j j.file) (hended : Ended newline j.file) {call : Call R}
    (hexact : Exact c (j.append c call).1) :
    Numbers c (j.append c call).1 (j.append c call).1.file ∧
      Ended newline (j.append c call).1.file ∧
        c.read (j.append c call).1.file =
          c.read j.file ++ (if (j.append c call).2 then call.records else []).map c.reread ∧
        ((writeRest call.writes (call.bytes c)).1 = [] ∨ (j.append c call).2 = true) := by
  obtain ⟨hreturned, hwritten⟩ := append_returned h hended call
  have happend := (Sync.of_numbers h hended).append call
  cases hcall : (j.append c call).2 with
  | true =>
      have hstored := happend.returned hcall
      exact ⟨⟨hstored.starts, hexact.2, hstored.size⟩, hstored.ended, hstored.read, Or.inr rfl⟩
  | false =>
      obtain ⟨hnumbers, torn, htorn, hfile, _⟩ := happend.raised hcall
      have hsame : c.read j.file = c.read (j.append c call).1.file :=
        ((hnumbers.shows hfile).1 0).symm.trans (hexact.1 0)
      have hempty : torn = [] := by
        rw [hfile, c.read_append hended, List.self_eq_append_right] at hsame
        cases htorn' : torn with
        | nil => rfl
        | cons b rest =>
            obtain ⟨later, hlater, _⟩ := writeRest_spec call.writes (call.bytes c)
            rw [← hwritten, ← htorn, htorn', List.cons_append] at hlater
            rw [htorn'] at hsame
            exact absurd hsame (c.read_ne_nil (Call.bytes_head hlater))
      rw [hempty] at htorn
      rw [hempty, List.append_nil] at hfile
      rw [hfile]
      refine ⟨hnumbers, hended, (List.append_nil _).symm, Or.inl ?_⟩
      rw [← hwritten, ← htorn]

/-- A run that is exact throughout adds to the file what its returned records read as. -/
theorem exact_run (h : Numbers c j j.file) (hended : Ended newline j.file) {calls : List (Call R)}
    (hexact : j.Each c (fun j call => Exact c (j.append c call).1) calls) :
    c.read (j.run c calls).file = c.read j.file ++ (j.returned c calls).map c.reread ∧
      ∀ call ∈ calls, (writeRest call.writes (call.bytes c)).1 = [] ∨
        (writeRest call.writes (call.bytes c)).2 = true ∧ call.records ⊆ j.returned c calls := by
  induction calls generalizing j with
  | nil => exact ⟨(List.append_nil _).symm, fun call hcall => by cases hcall⟩
  | cons call calls ih =>
      obtain ⟨hcall, hcalls⟩ := hexact
      obtain ⟨hnumbers, hended', hread, hstored⟩ := Exact.step h hended hcall
      obtain ⟨hrun, hrest⟩ := ih hnumbers hended' hcalls
      refine ⟨?_, ?_⟩
      · rw [Journal.returned, List.map_append, ← List.append_assoc, ← hread, ← hrun]
        rfl
      · intro other hother
        rcases List.mem_cons.mp hother with rfl | hother
        · refine hstored.imp_right fun hdone => ⟨?_, ?_⟩
          · rw [← (append_returned h hended other).1, hdone]
          · rw [Journal.returned, if_pos hdone]
            exact List.subset_append_left _ _
        · refine (hrest other hother).imp_right fun hdone => ⟨hdone.1, ?_⟩
          exact List.Subset.trans hdone.2 (List.subset_append_right _ _)

theorem clean_run (h : Numbers c j j.file) (hended : Ended newline j.file) {calls : List (Call R)}
    (hcalls : ∀ call ∈ calls, call.Clean c) :
    j.Each c (Keeps c) calls ∧ j.Each c (fun j call => Exact c (j.append c call).1) calls := by
  induction calls generalizing j with
  | nil => exact ⟨trivial, trivial⟩
  | cons call calls ih =>
      obtain ⟨hcall, hrest⟩ := List.forall_mem_cons.mp hcalls
      obtain ⟨hkept, hnumbers, hended'⟩ := hcall.step h hended
      obtain ⟨hkeeps, hexact⟩ := ih hnumbers hended' hrest
      exact ⟨⟨hkept, hkeeps⟩, hnumbers.exact, hexact⟩

/-- A run leaves the journal exact after every call, with no record that was stored lost,
exactly when no call raises with bytes of its own in the file and what the others store reads back.
Bytes that a call leaves are shown once the next one that returns has numbered them; this fails
only after a call that raises before it has ended the torn line it found, or stores what does not
read back. -/
theorem journalRun_exact_iff (c : Codec R) (file : Bytes) (calls : List (Call R)) :
    (((openJournal c file).Each c (fun j call => Exact c (j.append c call).1) calls ∧
        NoneLost c (openJournal c file) calls) ↔ ∀ call ∈ calls, call.Clean c) ∧
      ((openJournal c file).Each c (Keeps c) calls →
        (openJournal c file).Each c (fun j call =>
          if (j.append c call).2 then Exact c (j.append c call).1
          else Shows c (j.append c call).1 j.file) calls ∧
        NoneLost c (openJournal c file) calls) := by
  obtain ⟨hnumbers, hended⟩ := openJournal_spec c file
  have hsync : Sync c (openJournal c file) := Sync.of_numbers hnumbers hended
  refine ⟨⟨?_, ?_⟩, fun hkept => ⟨hsync.recovers hkept, hsync.noneLost hkept⟩⟩
  · rintro ⟨hexact, hnone⟩
    obtain ⟨hread, hcalls⟩ := exact_run hnumbers hended hexact
    -- The file has one record for each that returned, so none of them changed.
    have hback : c.ReadsBack ((openJournal c file).returned c calls) := by
      rw [NoneLost, hread] at hnone
      have hsame := hnone.eq_of_length (by rw [List.length_append, List.length_append,
        List.length_map])
      exact Codec.readsBack_iff.mpr (List.append_cancel_left hsame).symm
    intro call hcall
    refine (hcalls call hcall).imp_right fun hdone => ⟨hdone.1, ?_⟩
    exact fun r hr => hback r (hdone.2 hr)
  · intro hcalls
    obtain ⟨hkept, hexact⟩ := clean_run hnumbers hended hcalls
    exact ⟨hexact, hsync.noneLost hkept⟩

end Runs

/-- Texts of one line, each stored behind a brace; the text `*` clears, and `F` is the former name
of `R`. -/
def bracedCodec : Codec { text : Bytes // newline ∉ text } where
  line text := 123 :: text.1
  record line :=
    if line = [123, 70] then ⟨[82], by decide⟩
    else ⟨(if line.head? = some 123 then line.tail else line).filter (· ≠ newline), by simp⟩
  isClear text := text.1 = [42]
  newline_not_mem text := by
    rw [List.mem_cons]
    exact fun h => h.elim (by decide) text.2
  opens text := ⟨123, text.1, rfl, by decide⟩

/-- The text `ab`, torn after two bytes, then refused before the torn line is ended, then
stored. -/
def joiningCalls : List (Call { text : Bytes // newline ∉ text }) :=
  [⟨[⟨[97, 98], by decide⟩], [.wrote 2, .raised]⟩, ⟨[⟨[97, 98], by decide⟩], [.raised]⟩,
    ⟨[⟨[97, 98], by decide⟩], [.wrote 4]⟩]

/-- The record of an append that returned is read as part of the torn line, or as another record. -/
theorem journalRun_joins_record :
    (openJournal bracedCodec []).returned bracedCodec joiningCalls = [⟨[97, 98], by decide⟩] ∧
      ((openJournal bracedCodec []).run bracedCodec joiningCalls).file =
        [123, 97, 123, 97, 98, newline] ∧
      ¬ NoneLost bracedCodec (openJournal bracedCodec []) joiningCalls ∧
      ¬ (openJournal bracedCodec []).Each bracedCodec
        (fun j call => Exact bracedCodec (j.append bracedCodec call).1) joiningCalls ∧
      ¬ Exact bracedCodec ((openJournal bracedCodec []).append bracedCodec
        ⟨[⟨[70], by decide⟩], [.wrote 3]⟩).1 := by
  refine ⟨by decide +kernel, by decide +kernel, ?_, ?_, ?_⟩
  · unfold NoneLost
    decide +kernel
  · intro hexact
    have hshown := (hexact.2.2.1).1 0
    revert hshown
    decide +kernel
  · intro hexact
    have hshown := hexact.2
    revert hshown
    decide +kernel

end Trackinizer.Jsonl
