import CatalogLint.Stored.Basic

/-!
# Stored segments

The operations on segments keep the stored number of arguments up to date by hand.
-/
namespace CatalogLint.StoredSegment
variable (w : Word)

def empty : StoredSegment :=
  ⟨[], 0⟩

def push (s : StoredSegment) (r : StoredRun) : Checked StoredSegment := do
  let length ← w.add s.length r.count
  return ⟨s.runs ++ [r], length⟩

def pushAll (s : StoredSegment) : List StoredRun → Checked StoredSegment
  | [] => return s
  | r :: runs => do
      let s ← s.push w r
      s.pushAll runs

/-- Pushes the runs of so many turns of a loop. -/
def pushTurns (loop : List StoredRun) : Nat → StoredSegment → Checked StoredSegment
  | 0, s => return s
  | k + 1, s => do
      let s ← s.pushAll w loop
      pushTurns loop k s

def pop (s : StoredSegment) : Checked (Option StoredRun × StoredSegment) :=
  match s.runs.getLast? with
  | none => return (none, s)
  | some r => do
      let length ← Checked.sub s.length r.count
      return (some r, ⟨s.runs.dropLast, length⟩)

/-- Adds up the arguments of some runs. -/
def count : List StoredRun → Nat → Checked Nat
  | [], total => return total
  | r :: runs, total => do
      let total ← w.add total r.count
      count runs total

/-- Keeps the first runs, so many of them. -/
def truncate (s : StoredSegment) (k : Nat) : Checked StoredSegment :=
  if k < s.runs.length then do
    let removed ← count w (s.runs.drop k) 0
    let length ← Checked.sub s.length removed
    return ⟨s.runs.take k, length⟩
  else return s

/-- The index of the run that covers position `n` and the offset inside it; past the end, the
number of runs and the number of positions by which the end is missed. -/
def locate : List StoredRun → Nat → Checked (Nat × Nat)
  | [], n => return (0, n)
  | r :: runs, n =>
      if n < r.count then return (0, n)
      else do
        let n ← Checked.sub n r.count
        let (i, k) ← locate runs n
        return (i + 1, k)

/-- Merges the runs into the run before them as long as the constraint is the same, then among
themselves. -/
def mergeInto (last : StoredRun) : List StoredRun → Checked (List StoredRun)
  | [] => return [last]
  | r :: runs =>
      if last.same r then do
        let count ← w.add last.count r.count
        mergeInto (last.withCount count) runs
      else do
        let merged ← mergeInto r runs
        return last :: merged

/-- Merges neighbouring runs of the same constraint. -/
def coalesce (s : StoredSegment) : Checked StoredSegment :=
  match s.runs with
  | [] => return s
  | r :: runs => do
      let merged ← mergeInto w r runs
      return { s with runs := merged }

end CatalogLint.StoredSegment
