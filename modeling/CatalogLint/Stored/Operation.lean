import CatalogLint.Stored.Narrow

/-!
# Operations on stored lists

All operations in one type, with what each of them asks for.
-/
namespace CatalogLint

/-- The number of arguments that some runs cover. -/
def StoredRun.total : List StoredRun → Nat
  | [] => 0
  | r :: runs => r.count + total runs

/-- An invariant of stored lists, at every level of nesting: no run is empty and no type is, an
element list is there exactly for a compound type, and the stored numbers of arguments are
right. -/
inductive StoredList.Valid : StoredList → Prop
  | intro {l : StoredList}
      (counts : ∀ r ∈ l.initial.runs ++ l.repeated.runs, 0 < r.count)
      (types : ∀ r ∈ l.initial.runs ++ l.repeated.runs,
        r.shape.compound = true ∨ r.shape.kinds.isEmpty = false)
      (compounds : ∀ r ∈ l.initial.runs ++ l.repeated.runs,
        r.shape.compound = true ↔ r.shape.elements.isSome = true)
      (initial : l.initial.length = StoredRun.total l.initial.runs)
      (repeated : l.repeated.length = StoredRun.total l.repeated.runs)
      (elements : ∀ r ∈ l.initial.runs ++ l.repeated.runs, ∀ m, r.shape.elements = some m →
        m.Valid) :
      l.Valid

/-- A shape that may be given to arguments. -/
structure StoredShape.Valid (s : StoredShape) : Prop where
  type : s.compound = true ∨ s.kinds.isEmpty = false
  compound : s.compound = true ↔ s.elements.isSome = true
  elements : ∀ m, s.elements = some m → m.Valid

namespace StoredList

/-- A list can be made to have that many arguments in its initial segment. -/
def Reaches (l : StoredList) (n : Nat) : Prop :=
  l.isFinite = true → n ≤ l.initial.length

inductive Operation where
  | require (n : Nat)
  | endAt (n : Nat)
  | restrict (first last : Nat) (shape : StoredShape)
  | restrictFrom (n : Nat) (shape : StoredShape)
  | requireShape (first last : Nat) (shape : StoredShape)
  | backtrack
  /-- The intersection with another list, which comes second. -/
  | intersect (other : StoredList)
  /-- The intersection with another list, which comes first. -/
  | intersectAfter (other : StoredList)
  | normalize
  | normalizeOutermost
  | unfold (m : Nat)
  | rotate (m : Nat)
  | split (n : Nat)
  | unshare (n : Nat)
  | appendLoop
  deriving DecidableEq, Repr

namespace Operation

/-- What the operation asks for: that the list has the places in question, that ranges and
rotations do not go backwards, and that other lists and shapes are valid. -/
def Allowed (l : StoredList) : Operation → Prop
  | .restrict first last shape => first ≤ last ∧ l.Reaches (last + 1) ∧ shape.Valid
  | .restrictFrom n shape => l.Reaches n ∧ shape.Valid
  | .requireShape first last shape => first ≤ last ∧ shape.Valid
  | .backtrack => l.isFinite = true
  | .intersect other | .intersectAfter other => other.Valid
  | .rotate m => l.initial.length ≤ m
  | .split n => l.Reaches n
  | .unshare n => l.Reaches (n + 1)
  | .require _ | .endAt _ | .normalize | .normalizeOutermost | .unfold _ | .appendLoop => True

/-- Carries the operation out; no list is left when no arguments satisfy the constraints. -/
def run (w : Word) (l : StoredList) : Operation → Checked (Option StoredList)
  | .require n => l.require w n
  | .endAt n => l.endAt w n
  | .restrict first last shape => l.restrict w first last shape
  | .restrictFrom n shape => l.restrictFrom w n shape
  | .requireShape first last shape => l.requireShape w first last shape
  | .backtrack => l.backtrack
  | .intersect other => l.intersect w other
  | .intersectAfter other => other.intersect w l
  | .normalize => do return some (← l.normalize w)
  | .normalizeOutermost => do return some (← l.normalizeOutermost w)
  | .unfold m => do return some (← l.unfold w m)
  | .rotate m => do return some (← l.rotate w m)
  | .split n => do return some (← l.split w n).2
  | .unshare n => do return some (← l.unshare w n).2
  | .appendLoop => do return some (← l.appendLoop w)

end Operation

/-- The lists that operations lead to, from valid lists on, each of them on a list that allows it.
Numbers are not bounded. -/
inductive Reachable : StoredList → Prop
  | empty : Reachable empty
  | unconstrained : Reachable unconstrained
  | valid {l : StoredList} (h : l.Valid) : Reachable l
  | step {l m : StoredList} {operation : Operation} (h : Reachable l)
      (allowed : operation.Allowed l) (run : operation.run .unbounded l = .ok (some m)) :
      Reachable m

end StoredList

end CatalogLint
