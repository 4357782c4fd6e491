import Mathlib.Data.List.Sort
import Trackinizer.Lib.PyDict
import Trackinizer.Lib.Segments

namespace Trackinizer.Boundaries

/-- A `dict` of counts by length. -/
structure Histogram where
  items : List (Nat × Nat)
  nodup : (items.map Prod.fst).Nodup

/-- The least value of a function on the first index and some others, and the earliest of them that
it is at. -/
def firstLeast {α : Type} [LinearOrder α] (f : Nat → α) (first : Nat) (others : List Nat) : α × Nat :=
  others.foldl (fun best i => if f i < best.1 then (f i, i) else best) (f first, first)

/-- `itertools.accumulate`. -/
def accumulate (counts : List Nat) : List Nat :=
  (List.range counts.length).map fun j => (counts.take (j + 1)).sum

def roundUp (padMultiple length : Nat) : Nat :=
  (length + padMultiple - 1) / padMultiple * padMultiple

/-- `_Table`. -/
structure Table (α : Type) where
  edges : List Nat
  dp : List (List (Nat × α))
  cut : List (List (Nat × Nat))

variable {α : Type} [AddCommMonoid α] [LinearOrder α]

section Fill

/-- What the first lengths up to the one cost where the bucket of the last of them starts behind
the other. -/
def candidate (prev : List (Nat × α)) (through : List Nat) (edgeCost : α) (j i : Nat) : α :=
  (PyDict.get prev i).getD 0 + (through.getD j 0 - through.getD i 0) • edgeCost

/-- One entry of the rows: the least cost, and the earliest cut that has it. -/
def bestCut (prev : List (Nat × α)) (through : List Nat) (costs : List α) (b j : Nat) : α × Nat :=
  firstLeast (candidate prev through (costs.getD j 0) j) (b - 1) (List.range' b (j - b))

/-- The rows of the table and of its cuts for one bucket more. -/
def nextRow (prev : List (Nat × α)) (through : List Nat) (costs : List α) (n b : Nat) :
    List (Nat × α) × List (Nat × Nat) :=
  ((List.range' b (n - b)).map fun j => (j, (bestCut prev through costs b j).1),
    (List.range' b (n - b)).map fun j => (j, (bestCut prev through costs b j).2))

/-- So many rows more, from the number of buckets that the first of them is for. -/
def nextRows (through : List Nat) (costs : List α) (n : Nat) :
    Nat → List (Nat × α) → Nat → List (List (Nat × α) × List (Nat × Nat))
  | 0, _, _ => []
  | more + 1, prev, b =>
      let row := nextRow prev through costs n b
      row :: nextRows through costs n more row.1 (b + 1)

/-- Why an item of the histogram is refused. -/
def refusal (item : Nat × Nat) : Option String :=
  if item.1 < 1 then some s!"length must be positive, got {item.1}"
  else if item.2 < 1 then some s!"count must be positive, got {item.2}"
  else none

def Histogram.lengths (freq : Histogram) : List Nat :=
  (freq.items.map Prod.fst).insertionSort (· ≤ ·)

def Histogram.count (freq : Histogram) (length : Nat) : Nat :=
  (PyDict.get freq.items length).getD 0

/-- What `_fill` makes of a histogram that it does not refuse. -/
def fillTable (freq : Histogram) (maxK : Nat) (cost : Nat → α) (padMultiple : Nat) : Table α :=
  let lengths := freq.lengths
  let n := lengths.length
  let through := accumulate (lengths.map freq.count)
  let edges := lengths.map (roundUp padMultiple)
  let costs := edges.map cost
  let first := (List.range n).map fun j => (j, through.getD j 0 • costs.getD j 0)
  let rows := nextRows through costs n (min maxK n - 1) first 1
  ⟨edges, first :: rows.map Prod.fst, [] :: rows.map Prod.snd⟩

/-- `_fill`. -/
def fill (freq : Histogram) (maxK : Nat) (cost : Nat → α) (padMultiple : Nat) :
    Except String (Table α) :=
  if freq.items = [] then .error "freq is empty"
  else
    match freq.items.findSome? refusal with
    | some message => .error message
    | none => .ok (fillTable freq maxK cost padMultiple)

end Fill

section Edges

variable (table : Table α)

def Table.value (b j : Nat) : α :=
  (PyDict.get (table.dp.getD b []) j).getD 0

def Table.cutOf (b j : Nat) : Nat :=
  (PyDict.get (table.cut.getD b []) j).getD 0

/-- The loop of `_best_edges`. -/
def Table.cutEdges : Nat → Nat → List Nat
  | 0, j => [table.edges.getD j 0]
  | b + 1, j => table.edges.getD j 0 :: Table.cutEdges b (table.cutOf (b + 1) j)

/-- `_best_edges`. -/
def bestEdges (k : Nat) : List Nat :=
  let last := table.edges.length - 1
  let bestB := (firstLeast (fun b => table.value b last) 0
    (List.range' 1 (min k table.dp.length - 1))).2
  (table.cutEdges bestB last).dedup.insertionSort (· ≤ ·)

end Edges

/-- `optimal_boundaries`. -/
def optimalBoundaries (freq : Histogram) (k : Nat) (cost : Nat → α) (padMultiple : Nat) :
    Except String (List Nat) :=
  if k < 1 then .error s!"k must be positive, got {k}"
  else (fill freq k cost padMultiple).map fun table => bestEdges table k

/-- One round of `bucketed_cost`. -/
def addItem (ordered : List Nat) (cost : Nat → α) (total : α) (item : Nat × Nat) :
    Except String α :=
  match ordered.find? fun e => decide (item.1 ≤ e) with
  | none => .error s!"length {item.1} exceeds the last edge {ordered.getLastD 0}"
  | some target => .ok (total + item.2 • cost target)

/-- `bucketed_cost`. -/
def bucketedCost (freq : Histogram) (edges : List Nat) (cost : Nat → α) : Except String α :=
  freq.items.foldlM (addItem (edges.insertionSort (· ≤ ·)) cost) 0

structure SweepPoint (α : Type) where
  k : Nat
  edges : List Nat
  cost : α

/-- One round of `sweep`. -/
def sweepPoint (freq : Histogram) (cost : Nat → α) (table : Table α) (k : Nat) :
    Except String (SweepPoint α) := do
  let edges := bestEdges table k
  return ⟨k, edges, ← bucketedCost freq edges cost⟩

/-- `sweep`. -/
def sweep (freq : Histogram) (maxK : Nat) (cost : Nat → α) (padMultiple : Nat) :
    Except String (List (SweepPoint α)) :=
  if maxK < 1 then .error s!"max_k must be positive, got {maxK}"
  else do
    let table ← fill freq maxK cost padMultiple
    (List.range' 1 maxK).mapM (sweepPoint freq cost table)

end Trackinizer.Boundaries
