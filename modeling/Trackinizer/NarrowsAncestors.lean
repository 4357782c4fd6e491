import Trackinizer.ClaimQueue
import Trackinizer.EdgeStore
import Trackinizer.Lib.Levels
import Trackinizer.Lib.PyDict

namespace Trackinizer.Ancestry

open Graph

/-- `Ancestor`. -/
structure Ancestor where
  id : UUID
  kind : InquiryKind
  seq : Nat
  title : Value
  status : Value
  childIds : List UUID := []
  deriving DecidableEq

/-- A row of `up`. -/
structure UpRow where
  child : UUID
  parent : UUID
  depth : Nat
  deriving DecidableEq

/-- A row that the query returns. -/
structure FoundRow where
  child : UUID
  id : UUID
  kind : InquiryKind
  seq : Nat
  title : Value
  status : Value
  deriving DecidableEq

section Query

variable {P : Type} (policy : Option (AccessPolicy P)) (principal : Option P) (s : Store)

/-- `{readable}`; with no policy or no principal it is `TRUE`. -/
def readable (id : UUID) : Bool :=
  match policy, principal with
  | some readFilter, some p => (s.inquiries.find? id).any fun row => readFilter p row.resource
  | _, _ => true

/-- The edges that both terms of the recursion follow. -/
def narrowsArcs : List (UUID × UUID) :=
  (arcs s.edges .narrows).filter fun arc => readable policy principal s arc.2

variable (arcs : List (UUID × UUID)) (levels : Nat)

/-- The first term of `up`. -/
def upStart (ids : List UUID) : List UpRow :=
  ((arcs.filter fun arc => decide (arc.1 ∈ ids)).map fun arc => ⟨arc.1, arc.2, 1⟩).dedup

/-- The recursive term over the last rows, less those that are there already. -/
def upRound (seen working : List UpRow) : List UpRow :=
  (((working.filter fun up => decide (up.depth < levels)).flatMap fun up =>
      (arcs.filter fun arc => decide (arc.1 = up.parent)).map fun arc =>
        ⟨arc.1, arc.2, up.depth + 1⟩).filter fun row => decide (row ∉ seen)).dedup

def upRounds : Nat → List UpRow → List UpRow → List UpRow
  | 0, seen, _ => seen
  | rounds + 1, seen, working =>
      let found := upRound arcs levels seen working
      upRounds rounds (seen ++ found) found

/-- `up`: the rounds after as many as there are levels yield no row. -/
def up (ids : List UUID) : List UpRow :=
  upRounds arcs levels levels (upStart arcs ids) (upStart arcs ids)

def minDepth (rows : List UpRow) (parent : UUID) : Nat :=
  ((rows.filter fun r => decide (r.parent = parent)).map UpRow.depth).min?.getD 0

/-- The `ORDER BY` of `kept`. -/
def keptBefore (rows : List UpRow) (a b : UUID) : Bool :=
  decide (minDepth rows a < minDepth rows b ∨ (minDepth rows a = minDepth rows b ∧ a ≤ b))

def kept (rows : List UpRow) (limit : Nat) : List UUID :=
  ((rows.map UpRow.parent).dedup.mergeSort (keptBefore rows)).take limit

/-- `NARROWS_ANCESTORS_SQL`; it asks for no order of the rows. -/
def narrowsAncestorsSql (seq : UUID → Nat) (ids : List UUID) (limit : Nat) : List FoundRow :=
  let rows := up (narrowsArcs policy principal s) levels ids
  ((rows.filter fun r => decide (r.parent ∈ kept rows limit)).filterMap fun r =>
    (s.inquiries.find? r.parent).map fun t =>
      { child := r.child, id := t.id, kind := t.kind, seq := seq t.id
        title := t.fields .title, status := t.fields .status }).dedup

end Query

section Walk

/-- What `narrows_ancestors` makes of a row. -/
def FoundRow.ancestor (r : FoundRow) : Ancestor :=
  { id := r.id, kind := r.kind, seq := r.seq, title := r.title, status := r.status }

/-- `nodes` and `parents`. -/
def gather (found : List FoundRow) : List (UUID × Ancestor) × List (UUID × List UUID) :=
  found.foldl (fun dicts r =>
    (PyDict.set dicts.1 r.id r.ancestor,
      PyDict.set dicts.2 r.child ((PyDict.get dicts.2 r.child).getD [] ++ [r.id]))) ([], [])

def sortListed (parents : List (UUID × List UUID)) : List (UUID × List UUID) :=
  parents.map fun item => (item.1, item.2.mergeSort fun a b => decide (a ≤ b))

/-- `parents.get(child, ())`. -/
def listed (parents : List (UUID × List UUID)) (child : UUID) : List UUID :=
  (PyDict.get parents child).getD []

variable (row : UUID)

/-- The inner loop's body, over `children` and the level's `found`. -/
def meetParent (child : UUID) (met : List (UUID × List UUID) × List UUID) (parent : UUID) :
    List (UUID × List UUID) × List UUID :=
  if parent = row then met
  else
    (PyDict.set met.1 parent ((PyDict.get met.1 parent).getD [] ++ [child]),
      if (PyDict.get met.1 parent).isNone then met.2 ++ [parent] else met.2)

def climbLevel (parents : List (UUID × List UUID)) (level : List UUID)
    (children : List (UUID × List UUID)) : List (UUID × List UUID) × List UUID :=
  level.foldl (fun met child => (listed parents child).foldl (meetParent row child) met)
    (children, [])

/-- The `while`: `order` and `children` once a level finds nothing. -/
def climb (parents : List (UUID × List UUID)) :
    Nat → List UUID → List UUID → List (UUID × List UUID) →
      Option (List UUID × List (UUID × List UUID))
  | _, [], order, children => some (order, children)
  | 0, _ :: _, _, _ => none
  | fuel + 1, child :: level, order, children =>
      let met := climbLevel row parents (child :: level) children
      climb parents fuel met.2 (order ++ met.2) met.1

/-- `_ancestry`; a missing key is no answer. -/
def ancestry (parents : List (UUID × List UUID)) (nodes : List (UUID × Ancestor)) :
    Option (List Ancestor) := do
  let fuel := (parents.flatMap Prod.snd).length + 1
  let (order, children) ← climb row parents fuel [row] [] []
  order.mapM fun up => do
    let node ← PyDict.get nodes up
    let line ← PyDict.get children up
    return { node with childIds := line }

end Walk

/-- `narrows_ancestors`, over the rows its query returned. -/
def narrowsAncestors (found : List FoundRow) (ids : List UUID) :
    Option (List (UUID × List Ancestor)) :=
  let (nodes, parents) := gather found
  ids.foldlM (fun answer row => do
    return PyDict.set answer row (← ancestry row (sortListed parents) nodes)) []

end Trackinizer.Ancestry
