import Trackinizer.Fuse
import Trackinizer.Lib.DepthFirst
import Trackinizer.Lib.PyDict

namespace Trackinizer.Fuse

open DepthFirst

variable {ρ : Type}

/-- A part as Python holds it: `address` is its `id`, by which the walk tells parts apart. -/
structure Part (ρ : Type) where
  address : Nat
  records : List (SessionRecord ρ)

def Part.own (plain : FromPlain) (part : Part ρ) : Option Text :=
  (declared plain part.records).lookup "id".toList

def Part.parent (plain : FromPlain) (forkedFrom : Text) (part : Part ρ) : Option Text :=
  (declared plain part.records).lookup forkedFrom

/-- `ids`. -/
def declaredIds (plain : FromPlain) (found : List (Part ρ)) : List Text :=
  found.filterMap (Part.own plain)

/-- Whether a part continues none of the parts found. -/
def isRoot (plain : FromPlain) (forkedFrom : Text) (found : List (Part ρ)) (part : Part ρ) : Bool :=
  (part.parent plain forkedFrom).all fun parent => parent ∉ declaredIds plain found

structure Links (nodes : List (Part ρ)) where
  successors : List (Text × List (Node nodes)) := []
  roots : List (Node nodes) := []

/-- One round of the loop that sorts parts into roots and forks. -/
def addPart (plain : FromPlain) (forkedFrom : Text) {found : List (Part ρ)} (links : Links found)
    (part : Node found) : Links found :=
  match part.1.parent plain forkedFrom with
  | some parent =>
      if parent ∈ declaredIds plain found then
        let forks := (PyDict.get links.successors parent).getD []
        { links with successors := PyDict.set links.successors parent (forks ++ [part]) }
      else { links with roots := links.roots ++ [part] }
  | none => { links with roots := links.roots ++ [part] }

def links (plain : FromPlain) (forkedFrom : Text) (found : List (Part ρ)) : Links found :=
  found.attach.foldl (addPart plain forkedFrom) {}

/-- What the walk pushes for a part, the first to be popped first. -/
def forksOf (plain : FromPlain) (forkedFrom : Text) {found : List (Part ρ)} (part : Node found) :
    List (Node found) :=
  match part.1.own plain with
  | some own => (PyDict.get (links plain forkedFrom found).successors own).getD []
  | none => []

def chain (plain : FromPlain) (forkedFrom : Text) (found : List (Part ρ)) : List (Part ρ) :=
  let walked := visitAll (fun part : Node found => part.1.address) (forksOf plain forkedFrom)
    (links plain forkedFrom found).roots
  walked.ordered.map Subtype.val ++ found.filter fun part => part.address ∉ walked.seen

/-- A part that a root leads to, from each part to one that forked from an id it declares. -/
inductive Reached (plain : FromPlain) (forkedFrom : Text) (found : List (Part ρ)) : Part ρ → Prop
  | root {part} (hpart : part ∈ found) (hroot : isRoot plain forkedFrom found part) :
      Reached plain forkedFrom found part
  | fork {part fork : Part ρ} {own : Text} (h : Reached plain forkedFrom found part)
      (hown : part.own plain = some own) (hfork : fork ∈ found)
      (hparent : fork.parent plain forkedFrom = some own) : Reached plain forkedFrom found fork

section Links

variable {plain : FromPlain} {forkedFrom : Text} {found : List (Part ρ)}

/-- What the loop has sorted so far. -/
theorem foldl_addPart (parts : List (Node found)) (start : Links found) :
    (parts.foldl (addPart plain forkedFrom) start).roots =
        start.roots ++ parts.filter (fun part => isRoot plain forkedFrom found part.1) ∧
      ∀ own, (PyDict.get (parts.foldl (addPart plain forkedFrom) start).successors own).getD [] =
        (PyDict.get start.successors own).getD [] ++ parts.filter fun part =>
          part.1.parent plain forkedFrom = some own && !isRoot plain forkedFrom found part.1 := by
  induction parts generalizing start with
  | nil => simp
  | cons part parts ih =>
    obtain ⟨hroots, hforks⟩ := ih (addPart plain forkedFrom start part)
    rw [List.foldl_cons]
    cases hparent : part.1.parent plain forkedFrom with
    | none =>
      have hroot : isRoot plain forkedFrom found part.1 = true := by simp [isRoot, hparent]
      have hadd : addPart plain forkedFrom start part =
          { start with roots := start.roots ++ [part] } := by simp [addPart, hparent]
      constructor
      · rw [hroots, hadd, List.filter_cons_of_pos (by simp [hroot]), List.append_assoc, List.singleton_append]
      · intro own
        rw [hforks, hadd, List.filter_cons_of_neg (by simp [hroot])]
    | some parent =>
      by_cases hdeclared : parent ∈ declaredIds plain found
      · have hroot : isRoot plain forkedFrom found part.1 = false := by
          simp [isRoot, hparent, hdeclared]
        have hadd : addPart plain forkedFrom start part = { start with
            successors := PyDict.set start.successors parent
              ((PyDict.get start.successors parent).getD [] ++ [part]) } := by
          simp [addPart, hparent, hdeclared]
        constructor
        · rw [hroots, hadd, List.filter_cons_of_neg (by simp [hroot])]
        · intro own
          rw [hforks, hadd, PyDict.get_set]
          by_cases hown : own = parent
          · subst hown
            rw [if_pos rfl, List.filter_cons_of_pos (by simp [hparent, hroot]), Option.getD_some,
              List.append_assoc, List.singleton_append]
          · rw [if_neg hown, List.filter_cons_of_neg (by simp [hparent, Ne.symm hown])]
      · have hroot : isRoot plain forkedFrom found part.1 = true := by
          simp [isRoot, hparent, hdeclared]
        have hadd : addPart plain forkedFrom start part =
            { start with roots := start.roots ++ [part] } := by simp [addPart, hparent, hdeclared]
        constructor
        · rw [hroots, hadd, List.filter_cons_of_pos (by simp [hroot]), List.append_assoc, List.singleton_append]
        · intro own
          rw [hforks, hadd, List.filter_cons_of_neg (by simp [hroot])]

theorem links_roots : (links plain forkedFrom found).roots =
    found.attach.filter fun part => isRoot plain forkedFrom found part.1 := by
  rw [links, (foldl_addPart found.attach {}).1, List.nil_append]

theorem mem_forksOf {part fork : Node found} : fork ∈ forksOf plain forkedFrom part ↔
    ∃ own, part.1.own plain = some own ∧ fork.1.parent plain forkedFrom = some own := by
  unfold forksOf
  cases hown : part.1.own plain with
  | none => simp
  | some own =>
    have hdeclared : own ∈ declaredIds plain found :=
      List.mem_filterMap.mpr ⟨part.1, part.2, hown⟩
    simp only [links, (foldl_addPart found.attach {}).2 own, List.mem_append, List.mem_filter,
      List.mem_attach, true_and, Bool.and_eq_true, decide_eq_true_eq, Option.some.injEq,
      exists_eq_left']
    constructor
    · rintro (hnone | ⟨hparent, _⟩)
      · simp [PyDict.get] at hnone
      · exact hparent
    · intro hparent
      exact Or.inr ⟨hparent, by simp [isRoot, hparent, hdeclared]⟩

theorem isRoot_of_mem_forksOf {part fork : Node found} (h : fork ∈ forksOf plain forkedFrom part) :
    isRoot plain forkedFrom found fork.1 = false := by
  obtain ⟨own, hown, hparent⟩ := mem_forksOf.mp h
  have hdeclared : own ∈ declaredIds plain found := List.mem_filterMap.mpr ⟨part.1, part.2, hown⟩
  simp [isRoot, hparent, hdeclared]

end Links

section Chain

variable {plain : FromPlain} {forkedFrom : Text} {found : List (Part ρ)}

theorem address_inj (hdistinct : (found.map Part.address).Nodup) (a b : Node found)
    (h : a.1.address = b.1.address) : a = b :=
  Subtype.ext (List.inj_on_of_nodup_map hdistinct a.2 b.2 h)

/-- The parts the walk puts in order. -/
def walked (plain : FromPlain) (forkedFrom : Text) (found : List (Part ρ)) :
    Visited found Nat :=
  visitAll (fun part : Node found => part.1.address) (forksOf plain forkedFrom)
    (links plain forkedFrom found).roots

theorem mem_leftover (hdistinct : (found.map Part.address).Nodup) {part : Part ρ}
    (hpart : part ∈ found) : part.address ∈ (walked plain forkedFrom found).seen ↔
      part ∈ (walked plain forkedFrom found).ordered.map Subtype.val := by
  have honce := visitAll_once (fun part : Node found => part.1.address)
    (forksOf plain forkedFrom) (links plain forkedFrom found).roots
  constructor
  · intro hseen
    have hmem := mem_ordered_of_seen (a := ⟨part, hpart⟩) (address_inj hdistinct) honce hseen
    exact List.mem_map.mpr ⟨_, hmem, rfl⟩
  · intro hmem
    obtain ⟨node, hnode, rfl⟩ := List.mem_map.mp hmem
    have hsame : (walked plain forkedFrom found).seen =
        (walked plain forkedFrom found).ordered.map fun part => part.1.address := honce.1
    rw [hsame]
    exact List.mem_map.mpr ⟨node, hnode, rfl⟩

theorem chain_perm (hdistinct : (found.map Part.address).Nodup) :
    (chain plain forkedFrom found).Perm found := by
  have honce := visitAll_once (fun part : Node found => part.1.address)
    (forksOf plain forkedFrom) (links plain forkedFrom found).roots
  have hfound : found.Nodup := List.Nodup.of_map _ hdistinct
  have hordered : ((walked plain forkedFrom found).ordered.map Subtype.val).Nodup := by
    have haddresses : ((walked plain forkedFrom found).ordered.map
        fun part => part.1.address).Nodup := by
      have hnodup := honce.2
      rwa [honce.1] at hnodup
    apply List.Nodup.of_map Part.address
    rwa [List.map_map]
  have hchain : (chain plain forkedFrom found).Nodup := by
    rw [chain, List.nodup_append]
    refine ⟨hordered, hfound.filter _, ?_⟩
    rintro a ha b hb rfl
    obtain ⟨hmem, hunseen⟩ := List.mem_filter.mp hb
    exact of_decide_eq_true hunseen ((mem_leftover hdistinct hmem).mpr ha)
  rw [List.perm_ext_iff_of_nodup hchain hfound]
  intro part
  rw [chain, List.mem_append, List.mem_filter]
  constructor
  · rintro (hwalked | ⟨hmem, _⟩)
    · obtain ⟨node, _, rfl⟩ := List.mem_map.mp hwalked
      exact node.2
    · exact hmem
  · intro hmem
    by_cases hseen : part.address ∈ (walked plain forkedFrom found).seen
    · exact Or.inl ((mem_leftover hdistinct hmem).mp hseen)
    · exact Or.inr ⟨hmem, decide_eq_true hseen⟩

theorem Reached.mem {part : Part ρ} (h : Reached plain forkedFrom found part) : part ∈ found := by
  cases h with
  | root hpart _ => exact hpart
  | fork _ _ hfork _ => exact hfork

/-- What a root leads to, the walk comes to. -/
theorem Reached.walked (hdistinct : (found.map Part.address).Nodup) {part : Part ρ}
    (h : Reached plain forkedFrom found part) :
    (⟨part, h.mem⟩ : Node found) ∈ (walked plain forkedFrom found).ordered := by
  have hpath : ∃ start ∈ (links plain forkedFrom found).roots,
      Relation.ReflTransGen (fun a b => b ∈ forksOf plain forkedFrom a) start
        (⟨part, h.mem⟩ : Node found) := by
    induction h with
    | root hpart hroot =>
      refine ⟨⟨_, hpart⟩, ?_, Relation.ReflTransGen.refl⟩
      rw [links_roots]
      exact List.mem_filter.mpr ⟨List.mem_attach _ _, hroot⟩
    | fork _ hown hfork hparent ih =>
      obtain ⟨start, hstart, hpath⟩ := ih
      exact ⟨start, hstart, hpath.tail (mem_forksOf.mpr ⟨_, hown, hparent⟩)⟩
  obtain ⟨start, hstart, hpath⟩ := hpath
  exact mem_visitAll (address_inj hdistinct) hstart hpath

theorem mem_roots {node : Node found} : node ∈ (links plain forkedFrom found).roots ↔
    isRoot plain forkedFrom found node.1 := by
  rw [links_roots, List.mem_filter]
  simp

/-- A fork that a root leads to comes behind a part that declares the id it forked from. -/
theorem chain_behind (hdistinct : (found.map Part.address).Nodup) {part : Part ρ}
    (h : Reached plain forkedFrom found part) (hfork : isRoot plain forkedFrom found part = false) :
    ∃ before after, chain plain forkedFrom found = before ++ part :: after ∧
      ∃ parent ∈ before, (parent.own plain).isSome ∧
        parent.own plain = part.parent plain forkedFrom := by
  obtain ⟨before, after, hsplit⟩ := List.append_of_mem (h.walked hdistinct)
  have hled := visitAll_led (fun part : Node found => part.1.address)
    (forksOf plain forkedFrom) (links plain forkedFrom found).roots
  refine ⟨before.map Subtype.val, after.map Subtype.val ++ found.filter fun part =>
    part.address ∉ (walked plain forkedFrom found).seen, ?_, ?_⟩
  · have hordered := congrArg (List.map Subtype.val) hsplit
    rw [List.map_append, List.map_cons] at hordered
    change (walked plain forkedFrom found).ordered.map Subtype.val ++ _ = _
    rw [hordered, List.append_assoc, List.cons_append]
    rfl
  · rcases hled.ordered before _ after hsplit with hroot | ⟨parent, hparent, hnext⟩
    · rw [mem_roots.mp hroot] at hfork
      cases hfork
    · obtain ⟨own, hown, hforked⟩ := mem_forksOf.mp hnext
      refine ⟨parent.1, List.mem_map.mpr ⟨parent, hparent, rfl⟩, ?_, ?_⟩
      · rw [hown, Option.isSome_some]
      · rw [hown, hforked]

theorem chain_roots (hdistinct : (found.map Part.address).Nodup) :
    (chain plain forkedFrom found).filter (isRoot plain forkedFrom found) =
      found.filter (isRoot plain forkedFrom found) := by
  have hwalked : (walked plain forkedFrom found).ordered.filter
      (fun part => isRoot plain forkedFrom found part.1) = (links plain forkedFrom found).roots := by
    apply visitAll_filter (fun a b hb => isRoot_of_mem_forksOf hb) (address_inj hdistinct)
    · exact fun a ha => mem_roots.mp ha
    · rw [links_roots]
      exact (List.nodup_attach.mpr (List.Nodup.of_map _ hdistinct)).filter _
  have hleft : (found.filter fun part => part.address ∉ (walked plain forkedFrom found).seen).filter
      (isRoot plain forkedFrom found) = [] := by
    rw [List.filter_eq_nil_iff]
    intro part hpart hroot
    obtain ⟨hmem, hunseen⟩ := List.mem_filter.mp hpart
    have hreached := (Reached.root hmem hroot).walked hdistinct
    exact of_decide_eq_true hunseen
      ((mem_leftover hdistinct hmem).mpr (List.mem_map.mpr ⟨_, hreached, rfl⟩))
  calc _ = ((walked plain forkedFrom found).ordered.map Subtype.val).filter
          (isRoot plain forkedFrom found) := by
        change List.filter _ (_ ++ _) = _
        rw [List.filter_append]
        exact (congrArg (_ ++ ·) hleft).trans (List.append_nil _)
    _ = (links plain forkedFrom found).roots.map Subtype.val := by
        rw [List.filter_map, ← hwalked]
        rfl
    _ = _ := by
        rw [links_roots]
        have hmap := List.filter_map (p := isRoot plain forkedFrom found) (f := Subtype.val)
          (l := found.attach)
        rw [List.attach_map_subtype_val] at hmap
        exact hmap.symm

/-- The parts are put in order without loss or repeat: a fork that a root leads to behind a part it
continues, and the roots as they stood. -/
theorem chain_ordered (hdistinct : (found.map Part.address).Nodup) :
    (chain plain forkedFrom found).Perm found ∧
      (∀ part, Reached plain forkedFrom found part → isRoot plain forkedFrom found part = false →
        ∃ before after, chain plain forkedFrom found = before ++ part :: after ∧
          ∃ parent ∈ before, (parent.own plain).isSome ∧
            parent.own plain = part.parent plain forkedFrom) ∧
      (chain plain forkedFrom found).filter (isRoot plain forkedFrom found) =
        found.filter (isRoot plain forkedFrom found) :=
  ⟨chain_perm hdistinct, fun _ => chain_behind hdistinct, chain_roots hdistinct⟩

def launched (address : Nat) (own parent : String) : Part Unit where
  address := address
  records := [.other (), .turnContext none [("payload".toList, .dict
    [("id".toList, .str own.toList), ("forked_from_id".toList, .str parent.toList)])] ()]

/-- A fork before the part it continues, another part of that one's id which forked from itself, two
parts that forked from one another, and one whose parent is not there. -/
def tangled : List (Part Unit) :=
  [launched 0 "b" "a", launched 1 "a" "a", launched 2 "c" "d", launched 3 "d" "c",
    launched 4 "a" "z"]

theorem chain_ordered_tangled : ∃ before after,
    chain strict "forked_from_id".toList tangled = before ++ launched 0 "b" "a" :: after ∧
      ∃ parent ∈ before, (parent.own strict).isSome ∧
        parent.own strict = some "a".toList := by
  have hroot : Reached strict "forked_from_id".toList tangled (launched 4 "a" "z") :=
    .root (by simp [tangled]) (by decide)
  have hown : (launched 4 "a" "z").own strict = some "a".toList := by decide
  have hfork : Reached strict "forked_from_id".toList tangled (launched 0 "b" "a") :=
    .fork hroot hown (by simp [tangled]) (by decide)
  exact (chain_ordered (by decide)).2.1 _ hfork (by decide)

end Chain

end Trackinizer.Fuse
