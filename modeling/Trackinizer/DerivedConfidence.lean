import Mathlib.Algebra.BigOperators.Group.List.Basic
import Trackinizer.ClaimQueue
import Trackinizer.Lib.PyDict
import Trackinizer.Lib.Ranked

namespace Trackinizer.Confidence

open Graph

/-- A row of `PROVING_EDGES_SQL`. -/
structure Citer where
  fromId : UUID
  fromKind : InquiryKind
  valence : Option PyFloat

/-- `_CLAIMABLE_KINDS`. -/
def claimable (kind : InquiryKind) : Bool :=
  decide (kind = .belief ∨ kind = .experiment)

section Query

variable {P : Type} (policy : Option (AccessPolicy P)) (principal : Option P) (s : Store)

/-- One row of `_policy_exclude_clauses` for the currency of a citation. -/
def invalidates (e : Edge) (id : UUID) : Bool :=
  match (edgePolicies e.kind).invalidatesCurrencyOn with
  | none => false
  | some .from => e.fromId = id
  | some .to => e.toId = id

def currentlyTrue (t : Inquiry) : Bool :=
  if t.kind = .belief then t.fields .beliefJudgement = .text "proven".toList
  else if t.kind = .experiment then t.fields .status = .text "complete".toList
  else t.isActive

/-- What an edge gives the query. -/
def citerOf (e : Edge) : Option Citer :=
  if e.kind = .proves then
    match s.inquiries.find? e.fromId with
    | none => none
    | some t =>
        if currentlyTrue t && !(s.edges.rows.any fun p => invalidates p t.id) &&
            inquiryReadFilter policy principal t then
          some ⟨e.fromId, t.kind, e.valence⟩
        else none
  else none

/-- `PROVING_EDGES_SQL`; it asks for no order. -/
def provingEdges (node : UUID) : List Citer :=
  (s.edges.rows.filter fun e => decide (e.toId = node)).filterMap (citerOf policy principal s)

/-- The live `proves` edges, from each row to its citers. -/
def liveArcs : List (UUID × UUID) :=
  s.edges.rows.filterMap fun e => (citerOf policy principal s e).map fun c => (e.toId, c.fromId)

end Query

section Walk

variable {R : Type} [AddCommMonoid R] [Mul R] [One R]

inductive WalkError where
  | noValence (citer : UUID)
  | outOfFuel
  deriving DecidableEq

/-- `memo` and `visiting`. -/
structure Walk (R : Type) where
  memo : List (UUID × R) := []
  visiting : List UUID := []

/-- What a valence weighs; there is no product with `None`. -/
def weigh (num : PyFloat → R) (c : Citer) (confidence : R) : Except WalkError R :=
  match c.valence with
  | none => .error (.noValence c.fromId)
  | some valence => .ok (confidence * num valence)

/-- The loop of `_node_confidence`, with the walk for the citers that are claims. -/
def foldCiters (num : PyFloat → R) (nodeConfidence : UUID → Walk R → Except WalkError (R × Walk R)) :
    List Citer → R → Walk R → Except WalkError (R × Walk R)
  | [], logOdds, w => .ok (logOdds, w)
  | c :: cs, logOdds, w => do
      let (citation, w) ←
        if claimable c.fromKind then nodeConfidence c.fromId w else .ok (1, w)
      let weight ← weigh num c citation
      foldCiters num nodeConfidence cs (logOdds + weight) w

/-- `_node_confidence`, over the rows that the query gives for each node. -/
def nodeConfidence (num : PyFloat → R) (foldConfidence : R → R) (rows : UUID → List Citer) :
    Nat → UUID → Walk R → Except WalkError (R × Walk R)
  | 0, _, _ => .error .outOfFuel
  | fuel + 1, node, w =>
      match PyDict.get w.memo node with
      | some known => .ok (known, w)
      | none =>
          if node ∈ w.visiting then .ok (foldConfidence 0, w)
          else do
            let (logOdds, w) ← foldCiters num (nodeConfidence num foldConfidence rows fuel)
              (rows node) 0 { w with visiting := node :: w.visiting }
            let result := foldConfidence logOdds
            return (result, ⟨PyDict.set w.memo node result, w.visiting.erase node⟩)

end Walk

/-- A store whose live `proves` edges close no cycle; none is stored without a valence. -/
structure ProofGraph (P : Type) where
  policy : Option (AccessPolicy P)
  principal : Option P
  store : Store
  acyclic : Acyclic (Arc (liveArcs policy principal store))
  weighed : ∀ e ∈ store.edges.rows, e.kind = .proves → e.valence ≠ none

namespace ProofGraph

variable {P : Type} (g : ProofGraph P)

def citers (node : UUID) : List Citer :=
  provingEdges g.policy g.principal g.store node

def arcs : List (UUID × UUID) :=
  liveArcs g.policy g.principal g.store

variable {g}

theorem mem_citers {node : UUID} {c : Citer} (h : c ∈ g.citers node) :
    Arc g.arcs node c.fromId ∧ c.valence ≠ none := by
  obtain ⟨e, he, hciter⟩ := List.mem_filterMap.mp h
  obtain ⟨hrow, hto⟩ := List.mem_filter.mp he
  have hnode : e.toId = node := of_decide_eq_true hto
  refine ⟨?_, ?_⟩
  · exact List.mem_filterMap.mpr ⟨e, hrow, by rw [hciter, ← hnode]; rfl⟩
  · unfold citerOf at hciter
    split at hciter
    next hproves =>
      split at hciter
      next => cases hciter
      next t =>
        split at hciter
        next =>
          cases hciter
          exact g.weighed e hrow hproves
        next => cases hciter
    next => cases hciter

section Purpose

variable {R : Type} [AddCommMonoid R] [Mul R] [One R] (num : PyFloat → R) (foldConfidence : R → R)

/-- What one citation adds, given the confidence of each claim. -/
def term (confidence : UUID → R) (c : Citer) : R :=
  (if claimable c.fromKind then confidence c.fromId else 1) * (c.valence.map num).getD 0

variable (g)

/-- The derived confidence of a node, by recursion along the live citations. -/
noncomputable def confidence : UUID → R :=
  (measure (rank g.arcs)).wf.fix fun node confidence =>
    foldConfidence ((g.citers node).attach.map fun c =>
      (if claimable c.1.fromKind then
        confidence c.1.fromId (rank_lt g.acyclic (mem_citers c.2).1) else 1) *
          (c.1.valence.map num).getD 0).sum

theorem confidence_eq (node : UUID) :
    g.confidence num foldConfidence node =
      foldConfidence ((g.citers node).map (term num (g.confidence num foldConfidence))).sum := by
  have hfix := (measure (rank g.arcs)).wf.fix_eq (fun node confidence =>
    foldConfidence ((g.citers node).attach.map fun c =>
      (if claimable c.1.fromKind then
        confidence c.1.fromId (rank_lt g.acyclic (mem_citers c.2).1) else 1) *
          (c.1.valence.map num).getD 0).sum) node
  have hattach := List.attach_map_subtype_val (g.citers node)
  refine hfix.trans ?_
  conv_rhs => rw [← hattach, List.map_map]
  rfl

end Purpose

section Runs

variable {R : Type} [AddCommMonoid R] [Mul R] [One R] {num : PyFloat → R} {foldConfidence : R → R}
  {rows : UUID → List Citer}

/-- What is memoised is no partial result. -/
def Remembers (g : ProofGraph P) (num : PyFloat → R) (foldConfidence : R → R) (w : Walk R) : Prop :=
  ∀ node known, PyDict.get w.memo node = some known → known = g.confidence num foldConfidence node

theorem foldCiters_ok {visiting : List UUID}
    {nodeConfidence : UUID → Walk R → Except WalkError (R × Walk R)} {cs : List Citer}
    (hweighed : ∀ c ∈ cs, c.valence ≠ none)
    (hstep : ∀ c ∈ cs, ∀ w, Remembers g num foldConfidence w → w.visiting = visiting →
      ∃ w', nodeConfidence c.fromId w = .ok (g.confidence num foldConfidence c.fromId, w') ∧
        Remembers g num foldConfidence w' ∧ w'.visiting = visiting)
    (logOdds : R) {w : Walk R} (hw : Remembers g num foldConfidence w)
    (hvisiting : w.visiting = visiting) :
    ∃ w', foldCiters num nodeConfidence cs logOdds w =
        .ok (logOdds + (cs.map (term num (g.confidence num foldConfidence))).sum, w') ∧
      Remembers g num foldConfidence w' ∧ w'.visiting = visiting := by
  induction cs generalizing logOdds w with
  | nil =>
      refine ⟨w, ?_, hw, hvisiting⟩
      rw [foldCiters, List.map_nil, List.sum_nil, add_zero]
  | cons c cs ih =>
      obtain ⟨valence, hvalence⟩ := Option.ne_none_iff_exists'.mp (hweighed c List.mem_cons_self)
      have hrest := ih (fun d hd => hweighed d (List.mem_cons_of_mem _ hd))
        fun d hd => hstep d (List.mem_cons_of_mem _ hd)
      rw [List.map_cons, List.sum_cons, ← add_assoc]
      by_cases hclaim : claimable c.fromKind = true
      · obtain ⟨w₁, hread, hw₁, hvisiting₁⟩ := hstep c List.mem_cons_self w hw hvisiting
        obtain ⟨w₂, hfold, hw₂⟩ := hrest (logOdds + term num (g.confidence num foldConfidence) c)
          hw₁ hvisiting₁
        refine ⟨w₂, ?_, hw₂⟩
        rw [← hfold, foldCiters, if_pos hclaim, hread]
        simp only [bind, Except.bind, weigh, hvalence, term, if_pos hclaim, Option.map_some,
          Option.getD_some]
      · obtain ⟨w₂, hfold, hw₂⟩ := hrest (logOdds + term num (g.confidence num foldConfidence) c)
          hw hvisiting
        refine ⟨w₂, ?_, hw₂⟩
        rw [← hfold, foldCiters, if_neg hclaim]
        simp only [bind, Except.bind, weigh, hvalence, term, if_neg hclaim, Option.map_some,
          Option.getD_some]

/-- With more fuel than nodes to reach the walk of a node that none of those it is visiting is
behind gives its derived confidence. -/
theorem nodeConfidence_ok (hrows : ∀ node, (rows node).Perm (g.citers node)) {fuel : Nat}
    {node : UUID} {w : Walk R} (hfuel : rank g.arcs node < fuel)
    (hw : Remembers g num foldConfidence w)
    (hvisiting : ∀ v ∈ w.visiting, Relation.TransGen (Arc g.arcs) v node) :
    ∃ w', nodeConfidence num foldConfidence rows fuel node w =
        .ok (g.confidence num foldConfidence node, w') ∧
      Remembers g num foldConfidence w' ∧ w'.visiting = w.visiting := by
  induction fuel generalizing node w with
  | zero => exact absurd hfuel (Nat.not_lt_zero _)
  | succ fuel ih =>
      rw [nodeConfidence]
      cases hknown : PyDict.get w.memo node with
      | some known =>
          refine ⟨w, ?_, hw, rfl⟩
          rw [hw node known hknown]
      | none =>
          -- A node that is being visited would be behind itself.
          have hfresh : node ∉ w.visiting := fun hmem => g.acyclic node (hvisiting node hmem)
          have hciters : ∀ c ∈ rows node, c ∈ g.citers node := fun c hc =>
            (hrows node).subset hc
          have hstep : ∀ c ∈ rows node, ∀ w', Remembers g num foldConfidence w' →
              w'.visiting = node :: w.visiting →
              ∃ w'', nodeConfidence num foldConfidence rows fuel c.fromId w' =
                  .ok (g.confidence num foldConfidence c.fromId, w'') ∧
                Remembers g num foldConfidence w'' ∧ w''.visiting = node :: w.visiting := by
            intro c hc w' hw' hvisiting'
            have harc := (mem_citers (hciters c hc)).1
            have hless : rank g.arcs c.fromId < rank g.arcs node := rank_lt g.acyclic harc
            have hbehind : ∀ v ∈ w'.visiting, Relation.TransGen (Arc g.arcs) v c.fromId := by
              intro v hv
              rw [hvisiting'] at hv
              rcases List.mem_cons.mp hv with rfl | hv
              · exact Relation.TransGen.single harc
              · exact (hvisiting v hv).tail harc
            obtain ⟨w'', hread, hw'', hsame⟩ := ih (by omega) hw' hbehind
            exact ⟨w'', hread, hw'', hsame.trans hvisiting'⟩
          obtain ⟨w', hfold, hw', hsame⟩ := foldCiters_ok
            (fun c hc => (mem_citers (hciters c hc)).2) hstep 0
            (w := { w with visiting := node :: w.visiting }) hw rfl
          have hresult : foldConfidence (0 + ((rows node).map
              (term num (g.confidence num foldConfidence))).sum) =
                g.confidence num foldConfidence node := by
            rw [g.confidence_eq, zero_add, ((hrows node).map _).sum_eq]
          refine ⟨⟨PyDict.set w'.memo node (g.confidence num foldConfidence node),
            w'.visiting.erase node⟩, ?_, ?_, ?_⟩
          · rw [if_neg hfresh, hfold]
            simp only [bind, Except.bind, hresult, pure, Except.pure]
          · intro other known hother
            rw [PyDict.get_set] at hother
            split at hother
            next heq =>
              cases hother
              rw [heq]
            next => exact hw' other known hother
          · rw [hsame, List.erase_cons_head]

/-- The derived confidence is its recursive definition, whatever order the rows are read in. -/
theorem nodeConfidence_derived (g : ProofGraph P) (num : PyFloat → R) (foldConfidence : R → R)
    (rows : UUID → List Citer) (hrows : ∀ node, (rows node).Perm (g.citers node)) (node : UUID)
    (fuel : Nat) (hfuel : g.arcs.length + 1 < fuel) :
    (∃ w, nodeConfidence num foldConfidence rows fuel node {} =
        .ok (g.confidence num foldConfidence node, w)) ∧
      g.confidence num foldConfidence node =
        foldConfidence ((g.citers node).map (term num (g.confidence num foldConfidence))).sum := by
  have hrank := rank_le g.arcs node
  have hnothing : Remembers g num foldConfidence ({} : Walk R) := by
    intro other known hother
    cases hother
  obtain ⟨w, hread, -⟩ := nodeConfidence_ok hrows (by omega : rank g.arcs node < fuel) hnothing
    fun v hv => absurd hv List.not_mem_nil
  exact ⟨⟨w, hread⟩, g.confidence_eq num foldConfidence node⟩

end Runs

section Diamond

def beliefRow (id : UUID) : Inquiry :=
  { id := id, kind := .belief, created := id
    fields := fun
      | .beliefJudgement => .text "proven".toList
      | _ => .null }

def artifactRow (id : UUID) : Inquiry :=
  { id := id, kind := .artifact, created := id
    fields := fun
      | .status => .text "active".toList
      | _ => .null }

def provesEdge (citer : InquiryKind) (fromId toId : UUID) (valence : ℚ) : Edge :=
  { fromId := fromId, toId := toId, kind := .proves, valence := some (.finite valence),
    fromKind := citer, toKind := .belief }

def diamondStore : Store where
  inquiries := ⟨[beliefRow 1, beliefRow 2, beliefRow 3, beliefRow 4, artifactRow 5], by decide⟩
  edges := ⟨[provesEdge .belief 2 1 1, provesEdge .belief 3 1 (-1), provesEdge .belief 4 2 1,
    provesEdge .belief 4 3 1, provesEdge .artifact 5 4 1], by decide⟩

theorem liveArcs_diamond :
    liveArcs (P := Unit) none none diamondStore = [(1, 2), (1, 3), (2, 4), (3, 4), (4, 5)] := by
  decide

/-- Two beliefs that a third proves speak for and against a fourth: the walk comes to the third
twice, and reads what it keeps of it. -/
def diamond : ProofGraph Unit where
  policy := none
  principal := none
  store := diamondStore
  acyclic := by
    apply acyclic_of_lt id
    intro a b harc
    have hgrows : ∀ arc ∈ [((1 : UUID), (2 : UUID)), (1, 3), (2, 4), (3, 4), (4, 5)],
        arc.1 < arc.2 := by
      decide
    rw [Arc, liveArcs_diamond] at harc
    exact hgrows (a, b) harc
  weighed := by
    intro e he _
    have hall : ∀ e ∈ diamondStore.edges.rows, e.valence ≠ none := by decide
    exact hall e he

def wholeNumber : PyFloat → ℤ
  | .finite q => q.num
  | _ => 0

theorem nodeConfidence_diamond :
    (∃ w, nodeConfidence wholeNumber (fun x => x + 1) (fun node => (diamond.citers node).reverse) 7
        1 {} = .ok (diamond.confidence wholeNumber (fun x => x + 1) 1, w)) ∧
      diamond.confidence wholeNumber (fun x => x + 1) 1 =
        (((diamond.citers 1).map (term wholeNumber
          (diamond.confidence wholeNumber fun x => x + 1))).sum + 1) := by
  have hlength : diamond.arcs.length + 1 < 7 := by
    rw [arcs, show diamond.store = diamondStore from rfl]
    exact (congrArg (fun arcs => List.length arcs + 1) liveArcs_diamond).trans_lt (by decide)
  exact nodeConfidence_derived diamond wholeNumber (fun x => x + 1)
    (fun node => (diamond.citers node).reverse) (fun node => List.reverse_perm _) 1 7 hlength

end Diamond

end ProofGraph

end Trackinizer.Confidence
