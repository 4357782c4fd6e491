import Trackinizer.PlainJson

namespace Trackinizer.Fuse

abbrev Extra := List (Text × PlainTree)

/-- The records fusing looks into; what it leaves alone in a record is the record's `rest`. -/
inductive SessionRecord (ρ : Type) where
  | turnContext (timestamp : Option Text) (extra : Extra) (rest : ρ)
  | userMessage (content : Option Text) (extra : Extra) (rest : ρ)
  | contextClear (timestamp summary : Option Text) (extra : Extra) (rest : ρ)
  | other (rest : ρ)

/-- How residual values narrow: `from_plain` to a text, which may raise, and to a mapping. -/
structure FromPlain where
  str : PlainTree → Except String Text
  mapping : PlainTree → Extra
  str_str : ∀ s, str (.str s) = .ok s

variable {ρ : Type}

def carries (key : Text) (extra : Extra) : Bool :=
  (extra.lookup key).isSome

/-- A boundary some fusing inserted. -/
def isSeam (seam : Text) : SessionRecord ρ → Bool
  | .contextClear _ _ extra _ => carries seam extra
  | _ => false

/-- Settings that carry a part's name. -/
def isNamed (seam : Text) : SessionRecord ρ → Bool
  | .turnContext _ extra _ => carries seam extra
  | _ => false

/-- `_named`. -/
def named (seam name : Text) : List (SessionRecord ρ) → List (SessionRecord ρ)
  | .turnContext timestamp extra rest :: records =>
      .turnContext timestamp (dictSet extra (seam, .str name)) rest :: records
  | records => records

def stringField : Text × PlainTree → Option (Text × Text)
  | (key, .str s) => some (key, s)
  | _ => none

/-- `_declared`: the string fields of the first settings that have a payload. -/
def declared (plain : FromPlain) : List (SessionRecord ρ) → List (Text × Text)
  | [] => []
  | .turnContext _ extra _ :: records =>
      match extra.lookup "payload".toList with
      | some payload => (plain.mapping payload).filterMap stringField
      | none => declared plain records
  | _ :: records => declared plain records

/-- When a part opened, by the first settings read of it. -/
def openedBy (opened : Option Text) : SessionRecord ρ → Option Text
  | .turnContext timestamp _ _ => opened.or (some (timestamp.getD []))
  | _ => opened

/-- What `_boundary` knows when it stops reading, and the stream it stopped in. -/
structure Ahead (ρ : Type) where
  before : List (SessionRecord ρ)
  opened : Option Text
  carried : Option Text
  stream : List (SessionRecord ρ)

/-- The loop of `_boundary`. -/
def readAhead (plain : FromPlain) (forkedFrom summary : Text) (before : List (SessionRecord ρ))
    (opened : Option Text) : List (SessionRecord ρ) → Ahead ρ
  | [] => ⟨before, opened, none, []⟩
  | .userMessage content extra rest :: records =>
      let read := before ++ [.userMessage content extra rest]
      let crossed := ((declared plain read).lookup forkedFrom).isSome || carries summary extra
      ⟨read, opened, if crossed then content else none, records⟩
  | record :: records =>
      readAhead plain forkedFrom summary (before ++ [record]) (openedBy opened record) records

/-- `opened or None`. -/
def orNone : Option Text → Option Text
  | some [] => none
  | opened => opened

/-- `_boundary`; the fields it does not state have their defaults. -/
def boundary [Inhabited ρ] (plain : FromPlain) (seam name : Text) (part : List (SessionRecord ρ)) :
    List (SessionRecord ρ) × SessionRecord ρ × List (SessionRecord ρ) :=
  let ahead := readAhead plain "forked_from_id".toList "isCompactSummary".toList [] none part
  (ahead.before, .contextClear (orNone ahead.opened) ahead.carried [(seam, .str name)] default,
    ahead.stream)

/-- One part as `fuse` yields it. -/
def fusePart [Inhabited ρ] (plain : FromPlain) (seam : Text) (names : List Text) :
    List (SessionRecord ρ) × Nat → List (SessionRecord ρ)
  | (part, 0) =>
      match names with
      | [] => part
      | name :: _ => named seam name part
  | (part, index + 1) =>
      let (before, clear, stream) := boundary plain seam (names.getD (index + 1) []) part
      clear :: before ++ stream

def fuse [Inhabited ρ] (plain : FromPlain) (seam : Text) (parts : List (List (SessionRecord ρ)))
    (names : List Text) : List (SessionRecord ρ) :=
  parts.zipIdx.flatMap (fusePart plain seam names)

/-- `_unnamed`. -/
def unnamed (seam : Text) : SessionRecord ρ → SessionRecord ρ
  | .turnContext timestamp extra rest =>
      if carries seam extra then
        .turnContext timestamp (extra.filter fun entry => entry.1 != seam) rest
      else .turnContext timestamp extra rest
  | record => record

/-- `_until_seam`: a part, whether a seam ended it, and the stream after it. -/
def untilSeam (seam : Text) (root : Bool) :
    List (SessionRecord ρ) → List (SessionRecord ρ) × Bool × List (SessionRecord ρ)
  | [] => ([], false, [])
  | record :: records =>
      if isSeam seam record then ([], true, records)
      else
        let (part, seamed, stream) := untilSeam seam root records
        ((if root then unnamed seam record else record) :: part, seamed, stream)

theorem untilSeam_length {seam : Text} {root : Bool} {records part stream : List (SessionRecord ρ)}
    (h : untilSeam seam root records = (part, true, stream)) :
    stream.length < records.length := by
  induction records generalizing part with
  | nil => simp [untilSeam] at h
  | cons record records ih =>
    simp only [untilSeam] at h
    split at h
    next => simp_all
    next =>
      simp only [Prod.mk.injEq] at h
      have hlt := ih (Prod.ext rfl (Prod.ext h.2.1 h.2.2))
      simp only [List.length_cons]
      omega

/-- The loop of `unfuse`. -/
def unfuseFrom (seam : Text) (root : Bool) (records : List (SessionRecord ρ)) :
    List (List (SessionRecord ρ)) :=
  match h : untilSeam seam root records with
  | (part, false, _) => [part]
  | (part, true, stream) =>
      have := untilSeam_length h
      part :: unfuseFrom seam false stream
termination_by records.length

theorem unfuseFrom_end {seam : Text} {root : Bool} {records part stream : List (SessionRecord ρ)}
    (h : untilSeam seam root records = (part, false, stream)) :
    unfuseFrom seam root records = [part] := by
  rw [unfuseFrom]
  split
  next heq => simp_all
  next heq => simp_all

theorem unfuseFrom_seam {seam : Text} {root : Bool} {records part stream : List (SessionRecord ρ)}
    (h : untilSeam seam root records = (part, true, stream)) :
    unfuseFrom seam root records = part :: unfuseFrom seam false stream := by
  rw [unfuseFrom]
  split
  next heq => simp_all
  next heq => simp_all

def unfuse (seam : Text) (records : List (SessionRecord ρ)) : List (List (SessionRecord ρ)) :=
  unfuseFrom seam true records

/-- `PurePath(path).name`. -/
def pureName (path : Text) : Text :=
  ((path.splitOn '/').filter fun piece => piece != [] && piece != ['.']).getLastD []

/-- A name that is no path. -/
def Bare (name : Text) : Prop :=
  name = pureName name ∧ name ≠ "..".toList

instance (name : Text) : Decidable (Bare name) :=
  inferInstanceAs (Decidable (_ ∧ _))

/-- `_bare`. -/
def bare (plain : FromPlain) (value : PlainTree) : Except String Text := do
  let name ← plain.str value
  if Bare name then
    return name
  else
    throw ("seam names a path, not a file: " ++ pyRepr name)

/-- One record of `part_names`. -/
def nameStep (plain : FromPlain) (seam : Text) (out : List Text) :
    SessionRecord ρ → Except String (List Text)
  | .turnContext _ extra _ =>
      match extra.lookup seam with
      | some value => if out = [] then do return [← bare plain value] else return out
      | none => return out
  | .contextClear _ _ extra _ =>
      match extra.lookup seam with
      | some value => do return (if out = [] then [[]] else out) ++ [← bare plain value]
      | none => return out
  | _ => return out

def partNames (plain : FromPlain) (seam : Text) (records : List (SessionRecord ρ)) :
    Except String (List Text) :=
  records.foldlM (nameStep plain seam) []

def opensWithSettings : List (SessionRecord ρ) → Bool
  | .turnContext _ _ _ :: _ => true
  | _ => false

/-- The names `part_names` gives back: the root's own rides on the settings it opens with, and
without them only a seam after it says that there was a root. -/
def namesKept (root : List (SessionRecord ρ)) (names : List Text) : List Text :=
  if opensWithSettings root then names
  else if names.length = 1 then []
  else [] :: names.drop 1

theorem carries_dictSet {seam : Text} {extra : Extra} (h : carries seam extra = false)
    (value : PlainTree) :
    (dictSet extra (seam, value)).lookup seam = some value ∧
      (dictSet extra (seam, value)).filter (fun entry => entry.1 != seam) = extra := by
  have hlookup : extra.lookup seam = none := by
    simpa [carries] using h
  have habsent : seam ∉ extra.map Prod.fst := by
    rw [List.lookup_eq_none_iff] at hlookup
    intro hmem
    obtain ⟨entry, hentry, heq⟩ := List.mem_map.mp hmem
    have hne := hlookup entry hentry
    simp [heq] at hne
  have hset : dictSet extra (seam, value) = extra ++ [(seam, value)] := by
    simp [dictSet, habsent]
  rw [hset]
  constructor
  · simp [List.lookup_append, hlookup]
  · have hkept : extra.filter (fun entry => entry.1 != seam) = extra := by
      rw [List.filter_eq_self]
      intro entry hentry
      have hne : entry.1 ≠ seam := by
        intro heq
        exact habsent (heq ▸ List.mem_map_of_mem hentry)
      simpa using hne
    simp [hkept]

theorem readAhead_restores (plain : FromPlain) (forkedFrom summary : Text)
    (records before : List (SessionRecord ρ)) (opened : Option Text) :
    (readAhead plain forkedFrom summary before opened records).before ++
      (readAhead plain forkedFrom summary before opened records).stream = before ++ records := by
  induction records generalizing before opened with
  | nil => rfl
  | cons record records ih =>
    cases record with
    | userMessage content extra rest => simp [readAhead]
    | turnContext timestamp extra rest => simp [readAhead, ih]
    | contextClear timestamp summary extra rest => simp [readAhead, ih]
    | other rest => simp [readAhead, ih]

/-- A part is one of fusing's inputs: no reset in it claims to be a boundary. -/
def Seamless (seam : Text) (part : List (SessionRecord ρ)) : Prop :=
  ∀ record ∈ part, isSeam seam record = false

/-- No settings in the part carry a name yet. -/
def Nameless (seam : Text) (part : List (SessionRecord ρ)) : Prop :=
  ∀ record ∈ part, isNamed seam record = false

theorem Seamless.named {seam : Text} {part : List (SessionRecord ρ)} (h : Seamless seam part)
    (name : Text) : Seamless seam (named seam name part) := by
  cases part with
  | nil => exact h
  | cons record records =>
    cases record with
    | turnContext timestamp extra rest =>
      intro record hrecord
      rcases List.mem_cons.mp hrecord with rfl | hrest
      · rfl
      · exact h record (List.mem_cons_of_mem _ hrest)
    | userMessage content extra rest => exact h
    | contextClear timestamp summary extra rest => exact h
    | other rest => exact h

theorem unnamed_eq {seam : Text} {record : SessionRecord ρ} (h : isNamed seam record = false) :
    unnamed seam record = record := by
  cases record with
  | turnContext timestamp extra rest =>
    have hfree : carries seam extra = false := h
    simp [unnamed, hfree]
  | userMessage content extra rest => rfl
  | contextClear timestamp summary extra rest => rfl
  | other rest => rfl

theorem Nameless.unnamed {seam : Text} {part : List (SessionRecord ρ)} (h : Nameless seam part) :
    part.map (unnamed seam) = part := by
  have hid : ∀ record ∈ part, Fuse.unnamed seam record = id record := by
    intro record hrecord
    exact unnamed_eq (h record hrecord)
  rw [List.map_congr_left hid, List.map_id]

/-- The name a root was given goes when it is read back. -/
theorem Nameless.named {seam : Text} {part : List (SessionRecord ρ)} (h : Nameless seam part)
    (name : Text) : (Fuse.named seam name part).map (Fuse.unnamed seam) = part := by
  cases part with
  | nil => rfl
  | cons record records =>
    cases record with
    | turnContext timestamp extra rest =>
      have hfree : carries seam extra = false := h _ (List.mem_cons_self ..)
      have hrest : records.map (Fuse.unnamed seam) = records :=
        Nameless.unnamed fun record hrecord => h record (List.mem_cons_of_mem _ hrecord)
      have hset := carries_dictSet hfree (.str name)
      have hcarries : carries seam (dictSet extra (seam, .str name)) = true := by
        rw [carries, hset.1]
        rfl
      simp only [Fuse.named, List.map_cons, hrest, Fuse.unnamed, hcarries, if_true, hset.2]
    | userMessage content extra rest => exact h.unnamed
    | contextClear timestamp summary extra rest => exact h.unnamed
    | other rest => exact h.unnamed

theorem untilSeam_part {seam : Text} (root : Bool) {part : List (SessionRecord ρ)}
    (h : Seamless seam part) :
    untilSeam seam root part =
      (part.map (fun record => if root then unnamed seam record else record), false, []) := by
  induction part with
  | nil => rfl
  | cons record part ih =>
    have hrecord : isSeam seam record = false := h record (List.mem_cons_self ..)
    have hpart := ih fun record hrecord => h record (List.mem_cons_of_mem _ hrecord)
    simp [untilSeam, hrecord, hpart]

theorem untilSeam_seam {seam : Text} (root : Bool) {part : List (SessionRecord ρ)}
    (h : Seamless seam part) {clear : SessionRecord ρ} (hclear : isSeam seam clear = true)
    (stream : List (SessionRecord ρ)) :
    untilSeam seam root (part ++ clear :: stream) =
      (part.map (fun record => if root then unnamed seam record else record), true, stream) := by
  induction part with
  | nil => simp [untilSeam, hclear]
  | cons record part ih =>
    have hrecord : isSeam seam record = false := h record (List.mem_cons_self ..)
    have hpart := ih fun record hrecord => h record (List.mem_cons_of_mem _ hrecord)
    simp [untilSeam, hrecord, hpart]

section Joined

variable {plain : FromPlain} {seam : Text}

/-- Records that name no part leave the names found so far as they are. -/
theorem partNames_part {part : List (SessionRecord ρ)} {out : List Text}
    (hpart : Seamless seam part) (hnamed : out ≠ [] ∨ Nameless seam part) :
    part.foldlM (nameStep plain seam) out = .ok out := by
  induction part with
  | nil => rfl
  | cons record part ih =>
    have hrecord : isSeam seam record = false := hpart record (List.mem_cons_self ..)
    have hrest := ih (fun record hrecord => hpart record (List.mem_cons_of_mem _ hrecord))
      (hnamed.imp_right fun h record hrecord => h record (List.mem_cons_of_mem _ hrecord))
    have hstep : nameStep plain seam out record = .ok out := by
      cases record with
      | turnContext timestamp extra rest =>
        rcases hnamed with hout | hfree
        · simp only [nameStep]
          split
          next => simp [hout, pure, Except.pure]
          next => rfl
        · have hfree : carries seam extra = false := hfree _ (List.mem_cons_self ..)
          have hlookup : extra.lookup seam = none := by
            simpa [carries] using hfree
          simp [nameStep, hlookup, pure, Except.pure]
      | contextClear timestamp summary extra rest =>
        have hlookup : extra.lookup seam = none := by
          simpa [isSeam, carries] using hrecord
        simp [nameStep, hlookup, pure, Except.pure]
      | userMessage content extra rest => rfl
      | other rest => rfl
    rw [List.foldlM_cons, hstep]
    exact hrest

theorem bare_str {name : Text} (h : Bare name) : bare plain (.str name) = .ok name := by
  simp [bare, plain.str_str, h, bind, Except.bind, pure, Except.pure]

/-- What `part_names` reads of the root: its name, where it opens with settings. -/
theorem partNames_root {root : List (SessionRecord ρ)} {name : Text} (hbare : Bare name)
    (hseam : Seamless seam root) (hfree : Nameless seam root) :
    (named seam name root).foldlM (nameStep plain seam) [] =
      .ok (if opensWithSettings root then [name] else []) := by
  cases root with
  | nil => rfl
  | cons record records =>
    cases record with
    | turnContext timestamp extra rest =>
      have hset := carries_dictSet (hfree _ (List.mem_cons_self ..)) (.str name)
      have hrest : Seamless seam records := fun record hrecord =>
        hseam record (List.mem_cons_of_mem _ hrecord)
      have hstep : nameStep plain seam [] (.turnContext timestamp
          (dictSet extra (seam, .str name)) rest) = .ok [name] := by
        simp [nameStep, hset.1, bare_str hbare, bind, Except.bind, pure, Except.pure]
      rw [named, List.foldlM_cons, hstep]
      exact partNames_part hrest (.inl (by simp))
    | userMessage content extra rest => exact partNames_part hseam (.inr hfree)
    | contextClear timestamp summary extra rest => exact partNames_part hseam (.inr hfree)
    | other rest => exact partNames_part hseam (.inr hfree)

variable [Inhabited ρ] {names : List Text}

/-- A later part comes whole behind the boundary that names it. -/
theorem fusePart_succ (plain : FromPlain) (seam : Text) (names : List Text)
    (part : List (SessionRecord ρ)) (index : Nat) :
    ∃ timestamp summary, fusePart plain seam names (part, index + 1) =
      .contextClear timestamp summary [(seam, .str (names.getD (index + 1) []))] default ::
        part := by
  have hrestored := readAhead_restores plain "forked_from_id".toList "isCompactSummary".toList
    part [] none
  rw [List.nil_append] at hrestored
  simp only [fusePart, boundary, List.cons_append, hrestored]
  exact ⟨_, _, rfl⟩

theorem isSeam_boundary (timestamp summary : Option Text) (name : Text) :
    isSeam seam (.contextClear timestamp summary [(seam, .str name)] (default : ρ)) = true := by
  simp [isSeam, carries]

/-- Splitting what was joined: the invariant of the loop over the parts still to come. -/
theorem unfuseFrom_joined (root : Bool) {part : List (SessionRecord ρ)}
    (parts : List (List (SessionRecord ρ))) (index : Nat) (hpart : Seamless seam part)
    (hparts : ∀ later ∈ parts, Seamless seam later) :
    unfuseFrom seam root
        (part ++ (parts.zipIdx (index + 1)).flatMap (fusePart plain seam names)) =
      part.map (fun record => if root then unnamed seam record else record) :: parts := by
  induction parts generalizing root part index with
  | nil =>
    rw [List.zipIdx_nil, List.flatMap_nil, List.append_nil]
    exact unfuseFrom_end (untilSeam_part root hpart)
  | cons later parts ih =>
    obtain ⟨timestamp, summary, hlater⟩ := fusePart_succ plain seam names later index
    have hrest := ih false (index + 1) (hparts later (List.mem_cons_self ..))
      fun other hother => hparts other (List.mem_cons_of_mem _ hother)
    have hsplit := untilSeam_seam root hpart
      (isSeam_boundary timestamp summary (names.getD (index + 1) []))
      (later ++ (parts.zipIdx (index + 1 + 1)).flatMap (fusePart plain seam names))
    rw [List.zipIdx_cons, List.flatMap_cons, hlater, List.cons_append, unfuseFrom_seam hsplit,
      hrest]
    simp

/-- Each later part adds the name its boundary carries. -/
theorem partNames_joined {parts : List (List (SessionRecord ρ))} {out : List Text} (index : Nat)
    (hout : out ≠ [] ∨ parts ≠ []) (hlength : names.length = index + 1 + parts.length)
    (hbare : ∀ name ∈ names, Bare name) (hparts : ∀ part ∈ parts, Seamless seam part) :
    ((parts.zipIdx (index + 1)).flatMap (fusePart plain seam names)).foldlM
      (nameStep plain seam) out =
        .ok ((if out = [] then [[]] else out) ++ names.drop (index + 1)) := by
  induction parts generalizing out index with
  | nil =>
    have hnone : names.drop (index + 1) = [] := by
      rw [List.drop_eq_nil_iff, hlength]
      simp
    have hout : out ≠ [] := hout.resolve_right fun h => h rfl
    rw [List.zipIdx_nil, List.flatMap_nil, hnone, List.append_nil, if_neg hout]
    rfl
  | cons part parts ih =>
    obtain ⟨timestamp, summary, hpart⟩ := fusePart_succ plain seam names part index
    have hlt : index + 1 < names.length := by
      rw [hlength, List.length_cons]
      omega
    have hname : names.getD (index + 1) [] = names[index + 1] := by
      simp [hlt]
    have hstep : nameStep plain seam out (.contextClear timestamp summary
        [(seam, .str names[index + 1])] (default : ρ)) =
          .ok ((if out = [] then [[]] else out) ++ [names[index + 1]]) := by
      simp [nameStep, bare_str (hbare _ (List.getElem_mem hlt)), bind, Except.bind, pure,
        Except.pure]
    have hsome : (if out = [] then [[]] else out) ++ [names[index + 1]] ≠ [] := by simp
    have hrest := ih (index + 1) (.inl hsome) (by rw [hlength, List.length_cons]; omega)
      fun other hother => hparts other (List.mem_cons_of_mem _ hother)
    rw [List.zipIdx_cons, List.flatMap_cons, hpart, hname, List.cons_append, List.foldlM_cons,
      hstep]
    change (part ++ _).foldlM _ _ = _
    rw [List.foldlM_append, partNames_part (hparts part (List.mem_cons_self ..)) (.inl hsome)]
    change List.foldlM _ _ _ = _
    rw [hrest, if_neg hsome, List.drop_eq_getElem_cons hlt]
    simp

theorem fuse_cons (plain : FromPlain) (seam name : Text) (names : List Text)
    (root : List (SessionRecord ρ)) (parts : List (List (SessionRecord ρ))) :
    fuse plain seam (root :: parts) (name :: names) = named seam name root ++
      (parts.zipIdx (0 + 1)).flatMap (fusePart plain seam (name :: names)) := by
  rw [fuse, List.zipIdx_cons, List.flatMap_cons]
  rfl

theorem partNames_fuse {root : List (SessionRecord ρ)} {parts : List (List (SessionRecord ρ))}
    (hlength : names.length = (root :: parts).length) (hbare : ∀ name ∈ names, Bare name)
    (hseam : ∀ part ∈ root :: parts, Seamless seam part) (hfree : Nameless seam root) :
    partNames plain seam (fuse plain seam (root :: parts) names) =
      .ok (namesKept root names) := by
  cases names with
  | nil => simp at hlength
  | cons name names =>
    have hlater : ∀ part ∈ parts, Seamless seam part := fun part hpart =>
      hseam part (List.mem_cons_of_mem _ hpart)
    have hcount : (name :: names).length = 0 + 1 + parts.length := by
      rw [hlength, List.length_cons]
      omega
    have hread := @partNames_root ρ plain seam root name (hbare name (List.mem_cons_self ..))
      (hseam root (List.mem_cons_self ..)) hfree
    rw [fuse_cons, partNames, List.foldlM_append, hread]
    change List.foldlM _ _ _ = _
    cases hopens : opensWithSettings root with
    | true =>
      rw [if_pos rfl, partNames_joined 0 (.inl (by simp)) hcount hbare hlater]
      simp [namesKept, hopens]
    | false =>
      cases parts with
      | nil =>
        have hnone : names = [] := by simpa using hcount
        simp [namesKept, hopens, hnone]
        rfl
      | cons part parts =>
        have hsome : names ≠ [] := by
          rintro rfl
          simp at hcount
        rw [if_neg (by simp), partNames_joined 0 (.inr (by simp)) hcount hbare hlater]
        simp [namesKept, hopens, hsome]

/-- Fusing loses no record, and no name but that of a root that opens with no settings. -/
theorem unfuse_fuse (plain : FromPlain) (seam : Text) (parts : List (List (SessionRecord ρ)))
    (names : List Text) (hparts : parts ≠ []) (hlength : names.length = parts.length)
    (hbare : ∀ name ∈ names, Bare name) (hseam : ∀ part ∈ parts, Seamless seam part)
    (hfree : Nameless seam (parts.head hparts)) :
    unfuse seam (fuse plain seam parts names) = parts ∧
      partNames plain seam (fuse plain seam parts names) =
        .ok (namesKept (parts.head hparts) names) := by
  cases parts with
  | nil => exact absurd rfl hparts
  | cons root parts =>
    refine ⟨?_, partNames_fuse hlength hbare hseam hfree⟩
    cases names with
    | nil => simp at hlength
    | cons name names =>
      have hroot : Seamless seam (named seam name root) :=
        (hseam root (List.mem_cons_self ..)).named name
      have hlater : ∀ part ∈ parts, Seamless seam part := fun part hpart =>
        hseam part (List.mem_cons_of_mem _ hpart)
      have hback : (named seam name root).map (unnamed seam) = root := hfree.named name
      rw [fuse_cons, unfuse, unfuseFrom_joined true parts 0 hroot hlater]
      simp [hback]

end Joined

/-- Narrowing that only takes what already has the type. -/
def strict : FromPlain where
  str
    | .str s => .ok s
    | _ => .error "expected a text"
  mapping
    | .dict entries => entries
    | _ => []
  str_str _ := rfl

def seamKey : Text := "$seam".toList

/-- A root under its settings, and a part that resumed it with a summary of its own. -/
def resumedParts : List (List (SessionRecord Unit)) :=
  [[.turnContext (some "12:00".toList) [] (), .userMessage (some "hi".toList) [] ()],
    [.userMessage (some "so far".toList) [("isCompactSummary".toList, .bool true)] ()]]

theorem unfuse_fuse_resumed :
    unfuse seamKey (fuse strict seamKey resumedParts ["a".toList, "b".toList]) = resumedParts ∧
      partNames strict seamKey (fuse strict seamKey resumedParts ["a".toList, "b".toList]) =
        .ok (namesKept (resumedParts.head (by simp [resumedParts])) ["a".toList, "b".toList]) := by
  apply unfuse_fuse
  · rfl
  · simp only [List.mem_cons, List.not_mem_nil, or_false, forall_eq_or_imp, forall_eq]
    exact ⟨by decide, by decide⟩
  · simp [resumedParts, Seamless, isSeam]
  · simp [resumedParts, Nameless, isNamed, carries]

/-- A root that opens with a turn. -/
def bareRoot : List (List (SessionRecord Unit)) :=
  [[.userMessage (some "hi".toList) [] ()]]

theorem partNames_forgets_root :
    bareRoot ≠ [] ∧ ["a".toList].length = bareRoot.length ∧ Bare "a".toList ∧
      (∀ part ∈ bareRoot, Seamless seamKey part ∧ Nameless seamKey part) ∧
      partNames strict seamKey (fuse strict seamKey bareRoot ["a".toList]) ≠ .ok ["a".toList] := by
  refine ⟨by simp [bareRoot], rfl, by decide, ?_, ?_⟩
  · simp [bareRoot, Seamless, isSeam, Nameless, isNamed]
  · have hlost : partNames strict seamKey (fuse strict seamKey bareRoot ["a".toList]) =
        .ok [] := rfl
    rw [hlost]
    simp

end Trackinizer.Fuse
