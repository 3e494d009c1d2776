import CatalogLint.Stored.Segment

/-!
# Changing the representation of a stored list

The operations of `CatalogLint.ArgList.Surgery` as they are carried out on what is stored: runs
are found by index, and the number of arguments is corrected where a segment changes.
-/
namespace CatalogLint.StoredList
variable (w : Word)

/-- Writes the loop out `m` times; never less than once. -/
def unfold (l : StoredList) (m : Nat) : Checked StoredList :=
  if m ≤ 1 then return l
  else do
    let length ← w.mul l.repeated.length m
    return { l with repeated := ⟨(List.replicate m l.repeated.runs).flatten, length⟩ }

/-- Makes a loop start at the argument `offset` of its run `index`. -/
def turn (loop : StoredSegment) (index offset : Nat) : Checked StoredSegment := do
  let (front, back) ← Checked.cut loop.runs index
  let runs := back ++ front
  if 0 < offset then do
    let r ← Checked.entry runs 0
    let left ← Checked.sub r.count offset
    let runs ← Checked.replace runs 0 [r.withCount left]
    return { loop with runs := runs ++ [r.withCount offset] }
  else return { loop with runs }

/-- Pushes the runs of a loop up to the argument `offset` of its run `index`. -/
def pushTo (s : StoredSegment) (loop : List StoredRun) (index offset : Nat) :
    Checked StoredSegment := do
  let (front, _) ← Checked.cut loop index
  let s ← s.pushAll w front
  if 0 < offset then do
    let r ← Checked.entry loop index
    s.push w (r.withCount offset)
  else return s

/-- Delays a loop of several runs until the initial segment covers `m` arguments. -/
def rotateRuns (l : StoredList) (m : Nat) : Checked StoredList := do
  let missing ← Checked.sub m l.initial.length
  let turns ← Checked.div missing l.repeated.length
  let start ← Checked.mod missing l.repeated.length
  let (index, offset) ← StoredSegment.locate l.repeated.runs start
  let initial ← StoredSegment.pushTurns w l.repeated.runs turns l.initial
  let initial ← pushTo w initial l.repeated.runs index offset
  Checked.demand (initial.length = m) .wrongLength
  if 0 < start then do
    let repeated ← turn l.repeated index offset
    return ⟨initial, repeated⟩
  else return { l with initial }

/-- Delays the loop until the initial segment covers `m` arguments, not fewer than it does. -/
def rotate (l : StoredList) (m : Nat) : Checked StoredList :=
  if m = l.initial.length ∨ l.isFinite then return l
  else do
    Checked.demand (l.initial.length < m) .turnedBack
    if l.repeated.runs.length = 1 then do
      let r ← Checked.entry l.repeated.runs 0
      let missing ← Checked.sub m l.initial.length
      let initial ← l.initial.push w (r.withCount missing)
      return { l with initial }
    else do
      let l ← l.rotateRuns w m
      l.verify w
      return l

/-- Cuts the run at an index in two after `offset` arguments. -/
def cutRun (s : StoredSegment) (index offset : Nat) : Checked (Nat × StoredSegment) := do
  let r ← Checked.entry s.runs index
  let left ← Checked.sub r.count offset
  let runs ← Checked.replace s.runs index [r.withCount offset]
  let next ← w.add index 1
  let runs ← Checked.insert runs next (r.withCount left)
  return (next, { s with runs })

/-- Delays the loop, if need be, until the initial segment covers `n` arguments. -/
def stretch (l : StoredList) (n : Nat) : Checked StoredList :=
  if l.initial.length < n then do
    Checked.demand (l.isFinite = false) .pastEnd
    l.rotate w n
  else return l

/-- Makes a run of the initial segment start at position `n`, and finds its index. -/
def split (l : StoredList) (n : Nat) : Checked (Nat × StoredList) := do
  let l ← l.stretch w n
  let (index, offset) ← StoredSegment.locate l.initial.runs n
  if offset = 0 then return (index, l)
  else do
    let (next, initial) ← cutRun w l.initial index offset
    return (next, { l with initial })

/-- What is left of a run after `offset` arguments and one more. -/
def runAfter (r : StoredRun) (offset : Nat) : Checked (List StoredRun) := do
  let left ← Checked.sub r.count offset
  if 1 < left then do
    let left ← Checked.sub left 1
    return [r.withCount left]
  else return []

/-- Gives the argument `offset` of the run at an index a run of its own. -/
def isolateRun (s : StoredSegment) (index offset : Nat) : Checked (Nat × StoredSegment) := do
  let r ← Checked.entry s.runs index
  if 1 < r.count then do
    let after ← runAfter r offset
    if 0 < offset then do
      let runs ← Checked.replace s.runs index (r.withCount offset :: r.withCount 1 :: after)
      let index ← w.add index 1
      return (index, { s with runs })
    else do
      let runs ← Checked.replace s.runs index (r.withCount 1 :: after)
      return (index, { s with runs })
  else return (index, s)

/-- Delays the loop, if need be, until the initial segment covers the argument at position `n`. -/
def stretchPast (l : StoredList) (n : Nat) : Checked StoredList :=
  if l.initial.length ≤ n then do
    Checked.demand (l.isFinite = false) .pastEnd
    let m ← w.add n 1
    l.rotate w m
  else return l

/-- Gives the argument at position `n` a run of its own in the initial segment, and finds its
index. -/
def unshare (l : StoredList) (n : Nat) : Checked (Nat × StoredList) := do
  let l ← l.stretchPast w n
  let (index, offset) ← StoredSegment.locate l.initial.runs n
  let (index, initial) ← isolateRun w l.initial index offset
  return (index, { l with initial })

/-- Ends the list after one turn of the loop. -/
def appendLoop (l : StoredList) : Checked StoredList := do
  let initial ← l.initial.pushAll w l.repeated.runs
  return ⟨initial, .empty⟩

/-- Drops runs, given from the last to the first, up to and with the last optional argument. -/
def dropTail (length : Nat) : List StoredRun → Checked (Option StoredSegment)
  | [] => return none
  | r :: front =>
      match r.presence with
      | .required => do
          let length ← Checked.sub length r.count
          dropTail length front
      | .optional => do
          let length ← Checked.sub length 1
          if 1 < r.count then do
            let count ← Checked.sub r.count 1
            return some ⟨(r.withCount count :: front).reverse, length⟩
          else return some ⟨front.reverse, length⟩

/-- Ends a finite list right before its last optional argument. -/
def backtrack (l : StoredList) : Checked (Option StoredList) := do
  Checked.demand l.isFinite .notFinite
  let initial ← dropTail l.initial.length l.initial.runs.reverse
  return initial.map fun initial => { l with initial }

end CatalogLint.StoredList
