import CatalogLint.Stored.Surgery

/-!
# Normal forms of stored lists

The steps of `CatalogLint.ArgList.Normal` as they are carried out on what is stored. The number
of arguments of a shortened loop is divided, that of a shortened initial segment diminished by the
arguments that are moved into the loop.
-/
namespace CatalogLint

namespace StoredList
variable (w : Word)

/-- Does the run at index `i` recur `m` runs later? The first run is taken to be longer by `extra`
arguments. -/
def recurs (runs : List StoredRun) (extra m i : Nat) : Checked Bool := do
  let r ← Checked.entry runs i
  let next ← w.add i m
  let q ← Checked.entry runs next
  let count ← w.add r.count (if i = 0 then extra else 0)
  return count = q.count ∧ r.same q

/-- Does every run at one of the indices recur `m` runs later? -/
def recurAll (runs : List StoredRun) (extra m : Nat) : List Nat → Checked Bool
  | [] => return true
  | i :: indices => do
      if ← recurs w runs extra m i then recurAll runs extra m indices else return false

/-- The first of some numbers of runs that the first `n` runs repeat. -/
def findPeriod (runs : List StoredRun) (extra n : Nat) : List Nat → Checked (Option Nat)
  | [] => return none
  | m :: candidates => do
      let rest ← Checked.mod n m
      if rest = 0 then do
        let last ← Checked.sub n m
        if ← recurAll w runs extra m (List.range last) then return some m
        else findPeriod runs extra n candidates
      else findPeriod runs extra n candidates

/-- Exchanges two runs. -/
def swap (runs : List StoredRun) (m n : Nat) : Checked (List StoredRun) := do
  let r ← Checked.entry runs m
  let q ← Checked.entry runs n
  let runs ← Checked.replace runs m [q]
  Checked.replace runs n [r]

/-- Cuts a loop after its first `m` runs, of the `n` that repeat them. A last run that wraps around
to the first one is kept: it is exchanged with the first run that is not. -/
def shortenTo (loop : StoredSegment) (n m : Nat) : Checked StoredSegment := do
  let wrapped ← Checked.sub loop.runs.length n
  let kept ← w.add wrapped m
  let turns ← Checked.div n m
  let length ← Checked.div loop.length turns
  if n < loop.runs.length then do
    let runs ← swap loop.runs m n
    return ⟨runs.take kept, length⟩
  else return ⟨loop.runs.take kept, length⟩

/-- Replaces a loop of several runs by the shortest loop of the same turns. -/
def shortenRuns (loop : StoredSegment) : Checked StoredSegment := do
  let count := loop.runs.length
  let last ← Checked.sub count 1
  let first ← Checked.entry loop.runs 0
  let final ← Checked.entry loop.runs last
  let wraps : Bool := 1 < count ∧ first.same final
  let n := if wraps then last else count
  let extra := if wraps then final.count else 0
  let half ← Checked.div n 2
  match ← findPeriod w loop.runs extra n ((List.range (half + 1)).drop 2) with
  | none => return loop
  | some m => shortenTo w loop n m

/-- Replaces the loop by the shortest one of the same turns. -/
def shortenLoop (loop : StoredSegment) : Checked StoredSegment :=
  if loop.runs.length = 0 then return loop
  else do
    let loop ← shortenRuns w loop
    if loop.runs.length = 1 then do
      let r ← Checked.entry loop.runs 0
      return ⟨[r.withCount 1], 1⟩
    else return loop

/-- Takes arguments off the last run, which may leave nothing of it. -/
def takeLast (loop : List StoredRun) (moved : Nat) : Checked (List StoredRun) := do
  let index ← Checked.sub loop.length 1
  let last ← Checked.entry loop index
  let left ← Checked.sub last.count moved
  Checked.replace loop index (if left = 0 then [] else [last.withCount left])

/-- Moves the last `moved` arguments of a loop to its front. -/
def turnBack (loop : List StoredRun) (moved : Nat) : Checked (List StoredRun) := do
  let first ← Checked.entry loop 0
  let index ← Checked.sub loop.length 1
  let last ← Checked.entry loop index
  if first.same last then do
    let count ← w.add first.count moved
    let loop ← Checked.replace loop 0 [first.withCount count]
    takeLast loop moved
  else do
    let loop ← Checked.insert loop 0 (last.withCount moved)
    takeLast loop moved

/-- Moves the tail of the initial segment into the loop as long as it agrees with the end of the
loop, in so many steps at most. -/
def absorb : Nat → StoredList → Checked StoredList
  | 0, _ => .error .endless
  | steps + 1, l =>
      match l.initial.runs.getLast?, l.repeated.runs.getLast? with
      | some r, some last =>
          if r.same last then do
            let moved := min r.count last.count
            let loop ← turnBack w l.repeated.runs moved
            let left ← Checked.sub r.count moved
            let front := l.initial.runs.dropLast
            let runs := if left = 0 then front else front ++ [r.withCount left]
            let length ← Checked.sub l.initial.length moved
            absorb steps ⟨⟨runs, length⟩, { l.repeated with runs := loop }⟩
          else return l
      | _, _ => return l

/-- Makes the loop start as early as possible. -/
def rollIn (l : StoredList) : Checked StoredList :=
  if l.repeated.runs.length = 1 then do
    let r ← Checked.entry l.repeated.runs 0
    if l.initial.runs.getLast?.any (·.same r) then do
      let (_, initial) ← l.initial.pop
      return { l with initial }
    else return l
  else absorb w (l.initial.length + 1) l

/-- The normal form of a list whose element lists are in normal form already. -/
def normalizeOutermost (l : StoredList) : Checked StoredList := do
  let initial ← l.initial.coalesce w
  let repeated ← l.repeated.coalesce w
  let repeated ← shortenLoop w repeated
  let l ← rollIn w ⟨initial, repeated⟩
  l.verify w
  return l

end StoredList

section Normalizing
variable (w : Word)

mutual

def StoredShape.normalize : StoredShape → Checked StoredShape
  | ⟨kinds, compound, elements⟩ => do
      let elements ← StoredList.normalizeOption elements
      return ⟨kinds, compound, elements⟩

def StoredRun.normalize : StoredRun → Checked StoredRun
  | ⟨count, presence, shape⟩ => do
      let shape ← shape.normalize
      return ⟨count, presence, shape⟩

def StoredRun.normalizeList : List StoredRun → Checked (List StoredRun)
  | [] => return []
  | r :: runs => do
      let r ← r.normalize
      let runs ← StoredRun.normalizeList runs
      return r :: runs

def StoredSegment.normalize : StoredSegment → Checked StoredSegment
  | ⟨runs, length⟩ => do
      let runs ← StoredRun.normalizeList runs
      return ⟨runs, length⟩

/-- The normal form, element lists first. -/
def StoredList.normalize : StoredList → Checked StoredList
  | ⟨initial, repeated⟩ => do
      StoredList.verify w ⟨initial, repeated⟩
      let initial ← initial.normalize
      let repeated ← repeated.normalize
      StoredList.normalizeOutermost w ⟨initial, repeated⟩

def StoredList.normalizeOption : Option StoredList → Checked (Option StoredList)
  | none => return none
  | some l => do
      let l ← l.normalize
      return some l

end

end Normalizing

end CatalogLint
