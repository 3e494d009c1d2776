import CatalogLint.ArgList.Basic

/-!
# Normal forms of argument lists

Many lists constrain their arguments alike: runs may be split, the loop may be written out
several times, and the tail of the initial segment may already belong to the loop. The normal
form merges runs, keeps the shortest loop and makes it start as early as possible, in the lists
of compound elements first. That two lists with the same normal form, and only those, constrain
alike is what comparisons rely on; it is not proved in this module.
-/
namespace CatalogLint

namespace ArgList

/-- The loop read as a circle: a first and a last run of the same constraint are one run. -/
def circle (loop : Segment) : Segment :=
  match loop, loop.getLast? with
  | first :: second :: rest, some last =>
      if first.same last then
        first.withCount (first.count + last.count) :: (second :: rest).dropLast
      else loop
  | _, _ => loop

/-- Does the segment repeat its first `m` runs throughout? -/
def isPeriodic (s : Segment) (m : Nat) : Bool :=
  s.take (s.length - m) = s.drop m

/-- The least number of runs, at least two, that a circle repeats; none if it repeats only
itself. -/
def period? (s : Segment) : Option Nat :=
  (List.range (s.length / 2 + 1)).find? fun m =>
    2 ≤ m ∧ s.length % m = 0 ∧ isPeriodic s m

/-- The shortest loop of the same turns. A run that wraps around stays split at the place where
the loop starts, and a loop of a single run needs one argument only. -/
def shortestLoop (loop : Segment) : Segment :=
  let around := circle loop
  let short :=
    match period? around with
    | none => loop
    | some m => loop.take m ++ loop.drop around.length
  match short with
  | [r] => [r.withCount 1]
  | _ => short

/-- One turn backwards by `k` arguments, at most the last run. -/
def turnBack (k : Nat) (loop : Segment) : Segment :=
  match loop.getLast? with
  | none => []
  | some last =>
      let front :=
        match loop.dropLast with
        | [] => []
        | first :: rest =>
            if first.same last then first.withCount (first.count + k) :: rest
            else last.withCount k :: first :: rest
      front ++ if last.count = k then [] else [last.withCount (last.count - k)]

/-- Moves the tail of the initial segment, given from its last run to its first, into the loop as
long as it agrees with the end of the loop. -/
def absorb : Segment → Segment → Segment × Segment
  | [], loop => ([], loop)
  | r :: front, loop =>
      match loop.getLast? with
      | none => (r :: front, loop)
      | some last =>
          if !r.same last then (r :: front, loop)
          else if r.count ≤ last.count then absorb front (turnBack r.count loop)
          else (r.withCount (r.count - last.count) :: front, turnBack last.count loop)

/-- Makes the loop start as early as possible. -/
def rollIn (initial loop : Segment) : ArgList :=
  match loop with
  | [r] =>
      match initial.getLast? with
      | some last => ⟨if last.same r then initial.dropLast else initial, loop⟩
      | none => ⟨initial, loop⟩
  | _ =>
      let (front, loop) := absorb initial.reverse loop
      ⟨front.reverse, loop⟩

/-- The normal form of a list whose element lists are in normal form already. -/
def normalizeOutermost (l : ArgList) : ArgList :=
  rollIn (Segment.coalesce l.initial) (shortestLoop (Segment.coalesce l.repeated))

end ArgList

mutual

def Shape.normalize : Shape → Shape
  | .plain k => .plain k
  | .compound k i r =>
      let m := ArgList.normalizeOutermost ⟨Run.normalizeList i, Run.normalizeList r⟩
      .compound k m.initial m.repeated

def Run.normalize : Run → Run
  | ⟨n, p, s⟩ => ⟨n, p, s.normalize⟩

def Run.normalizeList : List Run → List Run
  | [] => []
  | r :: rs => r.normalize :: Run.normalizeList rs

end

/-- The normal form, element lists first. -/
def ArgList.normalize (l : ArgList) : ArgList :=
  ArgList.normalizeOutermost ⟨Run.normalizeList l.initial, Run.normalizeList l.repeated⟩

end CatalogLint
