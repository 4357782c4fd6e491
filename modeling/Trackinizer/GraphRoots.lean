import Trackinizer.Lib.PyDict
import Trackinizer.Lib.QueueWalk
import Trackinizer.Lib.StableSort
import Trackinizer.Values

namespace Trackinizer.GraphRoots

open Graph

structure GraphNode where
  id : Text
  kind : Text
  created : Text
  deriving DecidableEq

structure GraphEdge where
  fromId : Text
  toId : Text
  edgeKind : Text

/-- `Graph`. -/
structure InquiryGraph where
  nodes : List GraphNode
  edges : List GraphEdge

structure RootGroup where
  key : Text
  root : Option GraphNode
  members : List Text
  newest : Text
  kinds : List (Text × Nat)

structure Roots where
  groups : List RootGroup
  home : List (Text × Text)
  under : List (Text × List Text)

def unrooted : Text := "unrooted".toList

section Source

/-- The first `\.(\d+)` of a text: its digits, and the text without it. -/
def cutFraction : Text → Text × Text
  | [] => ([], [])
  | c :: text =>
      if c = '.' ∧ text.takeWhile Char.isDigit ≠ [] then
        (text.takeWhile Char.isDigit, text.dropWhile Char.isDigit)
      else ((cutFraction text).1, c :: (cutFraction text).2)

/-- `micros`; `dateParse` is the milliseconds that `Date.parse` gives. -/
def micros (dateParse : Text → Int) (iso : Text) : Int :=
  let fraction := (cutFraction iso).1.take 6
  let padded := fraction ++ List.replicate (6 - fraction.length) '0'
  dateParse (cutFraction iso).2 * 1000 +
    padded.foldl (fun (n : Nat) c => 10 * n + (c.toNat - '0'.toNat)) 0

variable (dateParse : Text → Int) (g : InquiryGraph)

def newestFirst (a b : GraphNode) : Bool :=
  decide (micros dateParse b.created - micros dateParse a.created ≤ 0)

def byId : List (Text × GraphNode) :=
  (g.nodes.map fun found => (found.id, found)).foldl (fun d item => PyDict.set d item.1 item.2) []

/-- The edge narrows or was produced, between nodes of the graph. -/
def puts (e : GraphEdge) : Bool :=
  decide (e.edgeKind = "narrows".toList ∨ e.edgeKind = "produced_by".toList) &&
    (PyDict.get (byId g) e.fromId).isSome && (PyDict.get (byId g) e.toId).isSome

def below : List (Text × List Text) :=
  g.edges.foldl (fun below e =>
    if puts g e then
      PyDict.set below e.toId ((PyDict.get below e.toId).getD [] ++ [e.fromId])
    else below) []

def narrowing : List Text :=
  (g.edges.filter fun e => puts g e && decide (e.edgeKind = "narrows".toList)).map
    GraphEdge.fromId

def roots : List GraphNode :=
  (g.nodes.filter fun found => decide (found.kind = "Issue".toList) &&
    decide (found.id ∉ narrowing g) && (PyDict.get (below g) found.id).isSome).mergeSort
      (newestFirst dateParse)

def childrenOf (id : Text) : List Text := (PyDict.get (below g) id).getD []

/-- `group`; a group of no members has no `members[0]`. -/
def group (key : Text) (root : Option GraphNode) : List GraphNode → Option RootGroup
  | [] => none
  | first :: members => some
      { key := key, root := root, members := (first :: members).map GraphNode.id
        newest := (first :: members).foldl (fun newest member =>
          if micros dateParse newest < micros dateParse member.created then member.created
          else newest) first.created
        kinds := (first :: members).foldl (fun kinds member =>
          PyDict.set kinds member.kind ((PyDict.get kinds member.kind).getD 0 + 1)) [] }

/-- A root is pushed for each of the nodes under it. -/
def pushAbove (root : Text) :
    List (Text × Nat) → List (Text × List (Text × Nat)) → Option (List (Text × List (Text × Nat)))
  | [], above => some above
  | (id, depth) :: hops, above => do
      let tops ← PyDict.get above id
      pushAbove root hops (PyDict.set above id (tops ++ [(root, depth)]))

/-- The map over the roots: what it pushes, and the groups it makes. -/
def placeRoots (fuel : Nat) : List GraphNode → List (Text × List (Text × Nat)) →
    Option (List (Text × List (Text × Nat)) × List RootGroup)
  | [], above => some (above, [])
  | root :: rest, above => do
      let hops ← queueWalk (childrenOf g) fuel 0 [(root.id, 0)]
      let above ← pushAbove root.id hops above
      let members ← hops.mapM fun entry => PyDict.get (byId g) entry.1
      let found ← group dateParse root.id (some root) members
      let placed ← placeRoots fuel rest above
      some (placed.1, found :: placed.2)

/-- The group of the nodes under no root, if any. -/
def lastGroup (alone : List GraphNode) : Option (List RootGroup) :=
  if alone = [] then some []
  else (group dateParse unrooted none alone).map fun found => [found]

/-- `findRoots`, within so many turns of each of its walks. -/
def findRoots (fuel : Nat) : Option Roots := do
  let placed ← placeRoots dateParse g fuel (roots dateParse g)
    ((g.nodes.map fun found => (found.id, [])).foldl
      (fun d item => PyDict.set d item.1 item.2) [])
  let under := placed.1.map fun item =>
    (item.1, (item.2.mergeSort fun a b => decide ((a.2 : Int) - b.2 ≤ 0)).map Prod.fst)
  let alone := g.nodes.filter fun found => (PyDict.get under found.id).any List.isEmpty
  let last ← lastGroup dateParse alone
  some
    { groups := (placed.2.mergeSort fun a b =>
        decide (micros dateParse b.newest - micros dateParse a.newest ≤ 0)) ++ last
      home := under.map fun item => (item.1, item.2.head?.getD unrooted)
      under := under }

end Source

section Specification

def InquiryGraph.ids (g : InquiryGraph) : List Text := g.nodes.map GraphNode.id

/-- One node narrows the other, or was produced by it, in the graph. -/
def Below (g : InquiryGraph) (a b : Text) : Prop :=
  (∃ e ∈ g.edges, (e.edgeKind = "narrows".toList ∨ e.edgeKind = "produced_by".toList) ∧
    e.toId = a ∧ e.fromId = b) ∧ a ∈ g.ids ∧ b ∈ g.ids

/-- An Issue that narrows nothing in the graph and has something under it. -/
def IsRoot (g : InquiryGraph) (n : GraphNode) : Prop :=
  n ∈ g.nodes ∧ n.kind = "Issue".toList ∧
    (∀ e ∈ g.edges, e.edgeKind = "narrows".toList → e.fromId = n.id → e.toId ∉ g.ids) ∧
    ∃ b, Below g n.id b

/-- The root is reached from the node along `narrows` and `produced_by` edges. -/
def Under (g : InquiryGraph) (id root : Text) : Prop :=
  ∃ d, Steps (Below g) d root id

/-- The first root is nearer to the node than the second, or as near and no older. -/
def Foremost (dateParse : Text → Int) (g : InquiryGraph) (id : Text) (a b : GraphNode) : Prop :=
  ∀ m n, AtLevel (Below g) a.id m id → AtLevel (Below g) b.id n id →
    m < n ∨ (m = n ∧ micros dateParse b.created ≤ micros dateParse a.created)

/-- What `findRoots` says of a graph. -/
structure Correct (dateParse : Text → Int) (g : InquiryGraph) (r : Roots) : Prop where
  roots : ∀ n, (∃ found ∈ r.groups, found.root = some n) ↔ IsRoot g n
  roots_once : (r.groups.filterMap RootGroup.root).Nodup
  members : ∀ found ∈ r.groups, ∀ n, found.root = some n →
    found.key = n.id ∧ found.members.Nodup ∧ (∀ id, id ∈ found.members ↔ Under g id n.id) ∧
      found.members.Pairwise fun a b =>
        ∀ m k, AtLevel (Below g) n.id m a → AtLevel (Below g) n.id k b → m ≤ k
  under : ∀ n ∈ g.nodes, ∃ tops : List GraphNode,
    PyDict.get r.under n.id = some (tops.map GraphNode.id) ∧ tops.Nodup ∧
      (∀ root, root ∈ tops ↔ IsRoot g root ∧ Under g n.id root.id) ∧
      tops.Pairwise (Foremost dateParse g n.id) ∧
      PyDict.get r.home n.id = some ((tops.map GraphNode.id).head?.getD unrooted)
  alone : ∀ found ∈ r.groups, found.root = none →
    found.key = unrooted ∧ found.members.Nodup ∧ ∀ id, id ∈ found.members ↔
      id ∈ g.ids ∧ ∀ root, IsRoot g root → ¬ Under g id root.id
  alone_once : (r.groups.filter fun found => found.root.isNone).length ≤ 1
  alone_exists : (∃ found ∈ r.groups, found.root = none) ↔
    ∃ id ∈ g.ids, ∀ root, IsRoot g root → ¬ Under g id root.id

end Specification

end Trackinizer.GraphRoots
