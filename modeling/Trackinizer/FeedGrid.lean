import Mathlib.Data.List.Range
import Mathlib.Data.Rat.Defs
import Mathlib.Tactic.Ring

namespace Trackinizer.Grid

section Instants

/-- Microseconds from the epoch to `datetime.min`. -/
def minInstant : Int := -62135596800000000

/-- Microseconds from the epoch to `datetime.max`. -/
def maxInstant : Int := 253402300799999999

/-- A `datetime`: what its clock shows, and the offset of its zone from UTC there, in
microseconds. A naive one has the offset of the server's own zone. -/
structure Datetime where
  clock : Int
  offset : Int
  hmin : minInstant ≤ clock
  hmax : clock ≤ maxInstant
  hoffset : -86400000000 < offset ∧ offset < 86400000000

/-- Microseconds from the epoch to it. -/
def Datetime.us (at_ : Datetime) : Int :=
  at_.clock - at_.offset

end Instants

section Ladder

/-- `_US`. -/
def second : Int := 1000000

/-- `_DAY_SEC`. -/
def daySec : Int := 86400

/-- `_WIDTHS_SEC`. -/
def widthsSec : List Int :=
  [1, 2, 5, 10, 15, 30] ++ [1, 2, 5, 10, 15, 30].map (60 * ·) ++ [1, 2, 3, 6, 12].map (3600 * ·)

/-- Python's `range`. -/
def intRange (start stop : Int) : List Int :=
  (List.range (stop - start).toNat).map fun n : Nat => start + (n : Int)

/-- `days`, for the span from the one microsecond to the other. -/
def days (lo hi buckets : Int) : List Int :=
  let day := daySec * second
  intRange (max 1 ((hi - lo) / (buckets * day))) ((hi - lo) / day + 2)

/-- The widths that are tried, in seconds. -/
def widths (lo hi buckets : Int) : List Int :=
  widthsSec ++ (days lo hi buckets).map (daySec * ·)

def fits (lo hi buckets seconds : Int) : Bool :=
  decide (hi / (seconds * second) - lo / (seconds * second) < buckets)

end Ladder

structure BucketGrid where
  start : Datetime
  seconds : Int
  count : Int

section Purpose

/-- A width of the ladder, or of whole days. -/
def OnLadder (seconds : Int) : Prop :=
  seconds ∈ widthsSec ∨ ∃ d : Int, 1 ≤ d ∧ seconds = daySec * d

/-- Buckets of a width, at multiples of it, of which the first holds the one instant and the last
the other. -/
structure Holds (lo hi start width count : Int) : Prop where
  aligned : width ∣ start
  first : start ≤ lo ∧ lo < start + width
  last : start + (count - 1) * width ≤ hi ∧ hi < start + count * width

/-- The finest grid of at most so many buckets. -/
structure Covers (since till : Datetime) (buckets : Int) (g : BucketGrid) : Prop where
  few : g.count ≤ buckets
  ladder : OnLadder g.seconds
  holds : Holds since.us till.us g.start.us (g.seconds * second) g.count
  finest : ∀ w start count, OnLadder w → w < g.seconds →
    Holds since.us till.us start (w * second) count → buckets < count

/-- The finest width of the ladder with which so many buckets are enough. -/
structure Finest (lo hi buckets seconds : Int) : Prop where
  ladder : OnLadder seconds
  enough : fits lo hi buckets seconds = true
  finer : ∀ w, OnLadder w → w < seconds → fits lo hi buckets w = false

end Purpose

section Buckets

variable {lo hi buckets : Int}

theorem fits_iff {seconds : Int} :
    fits lo hi buckets seconds = true ↔
      hi / (seconds * second) - lo / (seconds * second) + 1 ≤ buckets := by
  rw [fits, decide_eq_true_eq]
  omega

theorem Finest.unique {w w' : Int} (h : Finest lo hi buckets w) (h' : Finest lo hi buckets w') :
    w = w' := by
  rcases Int.lt_trichotomy w w' with hlt | heq | hgt
  · have hfits := h'.finer w h.ladder hlt
    rw [h.enough] at hfits
    cases hfits
  · exact heq
  · have hfits := h.finer w' h'.ladder hgt
    rw [h'.enough] at hfits
    cases hfits

end Buckets

section Grids

variable {since till : Datetime} {buckets : Int}

end Grids

end Trackinizer.Grid
