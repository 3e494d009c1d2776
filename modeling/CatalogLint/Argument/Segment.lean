import CatalogLint.Argument.Run

/-!
# Segments

A segment is a run-length encoded sequence of argument constraints. Positions count arguments
from zero, not runs; `takeArgs` and `dropArgs` cut at a position and split the run that covers
it, so that `takeArgs n s ++ dropArgs n s` constrains the same arguments as `s`.
-/
namespace CatalogLint

abbrev Segment := List Run

namespace Segment

/-- The number of arguments covered. -/
def extent : Segment → Nat
  | [] => 0
  | r :: s => r.count + extent s

/-- The run that covers the argument at position `n`. -/
def at? : Segment → Nat → Option Run
  | [], _ => none
  | r :: s, n => if n < r.count then some r else at? s (n - r.count)

/-- The index of the run that covers position `n` and the offset inside it; past the end, the
number of runs and the number of positions by which the end is missed. -/
def locate : Segment → Nat → Nat × Nat
  | [], n => (0, n)
  | r :: s, n =>
      if n < r.count then (0, n)
      else
        let (i, k) := locate s (n - r.count)
        (i + 1, k)

def takeArgs : Nat → Segment → Segment
  | _, [] => []
  | n, r :: s =>
      if n = 0 then []
      else if n < r.count then [r.withCount n]
      else r :: takeArgs (n - r.count) s

def dropArgs : Nat → Segment → Segment
  | _, [] => []
  | n, r :: s =>
      if n < r.count then r.withCount (r.count - n) :: s
      else dropArgs (n - r.count) s

/-- Merges neighbouring runs of the same constraint. -/
def coalesce : Segment → Segment
  | [] => []
  | r :: s =>
      match coalesce s with
      | [] => [r]
      | q :: t => if r.same q then r.withCount (r.count + q.count) :: t else r :: q :: t

/-- Walks the runs while `n` arguments are still to be covered: `none` at a run that is not
required, otherwise how many arguments the segment leaves uncovered. -/
def uncovered : Segment → Nat → Option Nat
  | [], n => some n
  | r :: s, n =>
      if r.isRequired then
        if n ≤ r.count then some 0 else uncovered s (n - r.count)
      else none

/-- The presence of the first argument. -/
def firstPresence (s : Segment) : Option Presence :=
  s.head?.map Run.presence

/-- How deep compound shapes are nested in the runs. -/
def depth (s : Segment) : Nat :=
  Run.depthList s

end Segment

end CatalogLint
