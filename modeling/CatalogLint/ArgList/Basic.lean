import CatalogLint.Argument.Segment

/-!
# Argument lists

The arguments of a format string form an eventually periodic sequence: those of `initial`, then
those of `repeated` over and over. With an empty `repeated` the list is finite, and no argument
beyond `initial` is allowed.
-/
namespace CatalogLint

structure ArgList where
  initial : Segment
  repeated : Segment
  deriving DecidableEq, Repr

namespace ArgList

/-- No argument at all. -/
def empty : ArgList :=
  ⟨[], []⟩

/-- Any number of arguments of any category. -/
def unconstrained : ArgList :=
  ⟨[], [⟨1, .optional, .any⟩]⟩

def finite (s : Segment) : ArgList :=
  ⟨s, []⟩

def isEmpty (l : ArgList) : Bool :=
  l.initial.isEmpty && l.repeated.isEmpty

def isFinite (l : ArgList) : Bool :=
  l.repeated.isEmpty

/-- The constraint on the argument at position `n`, none if the list ends before it. -/
def argAt (l : ArgList) (n : Nat) : Option Run :=
  let k := Segment.extent l.initial
  if n < k then Segment.at? l.initial n
  else if l.isFinite then none
  else Segment.at? l.repeated ((n - k) % Segment.extent l.repeated)

/-- The presence of the first argument, none for the empty list. -/
def firstPresence (l : ArgList) : Option Presence :=
  Segment.firstPresence (l.initial ++ l.repeated)

/-- Are the arguments at all positions up to `n` required? One turn of the loop decides it: when
every run of the loop is required, so are all later positions. -/
def isRequired (l : ArgList) (n : Nat) : Bool :=
  match Segment.uncovered l.initial (n + 1) with
  | none => false
  | some 0 => true
  | some k => !l.isFinite && (Segment.uncovered l.repeated k).isSome

/-- How deep compound shapes are nested in the list. -/
def depth (l : ArgList) : Nat :=
  max (Segment.depth l.initial) (Segment.depth l.repeated)

end ArgList

/-- The list that the elements of a compound value follow. -/
def Shape.elements? : Shape → Option ArgList
  | .plain _ => none
  | .compound _ i r => some ⟨i, r⟩

end CatalogLint
