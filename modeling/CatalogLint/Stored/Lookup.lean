import CatalogLint.Stored.Segment

/-!
# Looking up arguments of a stored list

Where the loop stands is told by the stored numbers of arguments, not by the runs.
-/
namespace CatalogLint

/-- The run that covers the argument at position `n`, none past the end. -/
def StoredSegment.runAt (s : StoredSegment) (n : Nat) : Checked (Option StoredRun) := do
  let (index, _) ← locate s.runs n
  return s.runs[index]?

/-- The constraint on the argument at position `n`, none if the list ends before it. -/
def StoredList.argAt (l : StoredList) (n : Nat) : Checked (Option StoredRun) :=
  if n < l.initial.length then l.initial.runAt n
  else if l.isFinite then return none
  else do
    let past ← Checked.sub n l.initial.length
    let n ← Checked.mod past l.repeated.length
    l.repeated.runAt n

end CatalogLint
