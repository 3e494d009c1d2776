import CatalogLint.Stored.Intersection

/-!
# Narrowing a stored list

The operations of `CatalogLint.ArgList.Narrow` as they are carried out on what is stored.
-/
namespace CatalogLint

namespace StoredRun
variable (w : Word)

/-- Requires the first `n` arguments of some runs. -/
def requireFirst : Nat → List StoredRun → Checked (List StoredRun)
  | _, [] => return []
  | n, r :: runs =>
      if n = 0 then return r :: runs
      else do
        let n ← Checked.sub n r.count
        let runs ← requireFirst n runs
        return { r with presence := .required } :: runs

/-- How many of `n` arguments some runs leave uncovered; none if an argument before that is not
required. -/
def uncovered : List StoredRun → Nat → Checked (Option Nat)
  | [], n => return some n
  | r :: runs, n =>
      if r.presence = .required then
        if n ≤ r.count then return some 0
        else do
          let n ← Checked.sub n r.count
          uncovered runs n
      else return none

/-- What narrowing some runs leaves of them. -/
structure Narrowing where
  runs : List StoredRun
  /-- The position after the last run that has been narrowed. -/
  reached : Nat
  /-- The argument at that position cannot satisfy the constraint. -/
  contradiction : Bool

/-- Meets the runs from an index on, which start at position `n`, with a constraint: all of them,
or those up to the position `last`. -/
def narrow (constraint : StoredRun) (last : Option Nat) :
    Nat → Nat → List StoredRun → Checked Narrowing
  | _, n, [] => if last.any (n ≤ ·) then .error .noEntry else return ⟨[], n, false⟩
  | index, n, r :: runs =>
      if last.any (· < n) then return ⟨r :: runs, n, false⟩
      else do
        match ← r.meet w constraint with
        | .error _ => return ⟨r :: runs, n, true⟩
        | .ok narrowed => do
            let n ← w.add n r.count
            let index ← w.add index 1
            let rest ← narrow constraint last index n runs
            return { rest with runs := { r with shape := narrowed.shape } :: rest.runs }

end StoredRun

namespace StoredList
variable (w : Word)

/-- Are the arguments at all positions up to `n` required? -/
def isRequired (l : StoredList) (n : Nat) : Checked Bool := do
  let m ← w.add n 1
  match ← StoredRun.uncovered l.initial.runs m with
  | none => return false
  | some 0 => return true
  | some k =>
      if l.isFinite then return false
      else do
        let left ← StoredRun.uncovered l.repeated.runs k
        return left.isSome

/-- Requires the arguments at all positions up to `n`. -/
def require (l : StoredList) (n : Nat) : Checked (Option StoredList) := do
  l.verify w
  if l.isFinite && l.initial.length ≤ n then return none
  else do
    let m ← w.add n 1
    let (_, l) ← l.split w m
    let runs ← StoredRun.requireFirst m l.initial.runs
    let l : StoredList := { l with initial := { l.initial with runs } }
    l.verify w
    let required ← l.isRequired w n
    Checked.demand required .notRequired
    return some l

/-- Forbids the arguments at position `n` and later. -/
def endAt (l : StoredList) (n : Nat) : Checked (Option StoredList) := do
  l.verify w
  if l.isFinite && l.initial.length ≤ n then return some l
  else do
    let (index, l) ← l.split w n
    let next := (l.initial.runs[index]?).or l.repeated.runs.head?
    let initial ← l.initial.truncate w index
    endBefore ⟨initial, .empty⟩ (next.map StoredRun.presence)

/-- Makes the runs of the arguments at positions `first` to `last` separate, and finds the index of
the first one. -/
def isolate (l : StoredList) (first last : Nat) : Checked (Nat × StoredList) :=
  if first = last then l.unshare w first
  else do
    let (index, l) ← l.split w first
    let m ← w.add last 1
    let (_, l) ← l.split w m
    return (index, l)

/-- Gives the arguments at positions `first` to `last` a shape. The list ends at the first of
them that cannot have it. -/
def restrict (l : StoredList) (first last : Nat) (shape : StoredShape) :
    Checked (Option StoredList) := do
  Checked.demand (first ≤ last) .reversedRange
  let (index, l) ← l.isolate w first last
  let (before, rest) ← Checked.cut l.initial.runs index
  let rest ← StoredRun.narrow w ⟨1, .optional, shape⟩ (some last) index first rest
  let l : StoredList := { l with initial := { l.initial with runs := before ++ rest.runs } }
  if rest.contradiction then l.endAt w rest.reached
  else do
    l.verify w
    return some l

/-- Gives the arguments at position `n` and later a shape. The list ends at the first of them
that cannot have it. -/
def restrictFrom (l : StoredList) (n : Nat) (shape : StoredShape) :
    Checked (Option StoredList) := do
  let constraint : StoredRun := ⟨1, .optional, shape⟩
  let (index, l) ← l.split w n
  let (before, rest) ← Checked.cut l.initial.runs index
  let rest ← StoredRun.narrow w constraint none index n rest
  let l : StoredList := { l with initial := { l.initial with runs := before ++ rest.runs } }
  if rest.contradiction then l.endAt w rest.reached
  else do
    let loop ← StoredRun.narrow w constraint none 0 rest.reached l.repeated.runs
    let l : StoredList := { l with repeated := { l.repeated with runs := loop.runs } }
    if loop.contradiction then l.endAt w loop.reached
    else do
      l.verify w
      return some l

/-- Requires the arguments up to `last` and gives those from `first` on a shape. -/
def requireShape (l : StoredList) (first last : Nat) (shape : StoredShape) :
    Checked (Option StoredList) := do
  Checked.demand (shape.compound = shape.elements.isSome) .strayElements
  match ← l.require w last with
  | none => return none
  | some l => l.restrict w first last shape

end StoredList

end CatalogLint
