import CatalogLint.ArgList.Normal
import CatalogLint.ArgList.Surgery

/-!
# Intersection of argument lists

The arguments that satisfy two lists at once. Both loops are brought to the same period and both
initial segments to the same extent; then the lists are walked side by side. Where an argument
cannot satisfy both, the common list ends: right there if the argument is optional, and before
the last optional argument otherwise. Compound shapes meet in the intersection of their element
lists, so the walk recurs along the nesting.
-/
namespace CatalogLint

/-- The shape of a value that has both shapes, with `lists` to intersect element lists. Two
compound shapes meet only when both format sequences or both format tables. -/
def Shape.meetWith (lists : ArgList → ArgList → Option ArgList) : Shape → Shape → Option Shape
  | .plain k, t =>
      if k = .any then some t
      else match t with
        | .plain l =>
            if l = .any then some (.plain k)
            else if (k.inter l).isEmpty then none
            else some (.plain (k.inter l))
        | .compound l i r =>
            if (k.inter l).isEmpty then none else some (.compound (k.inter l) i r)
  | .compound k i r, .plain l =>
      if l = .any then some (.compound k i r)
      else if (k.inter l).isEmpty then none
      else some (.compound (k.inter l) i r)
  | .compound k i r, .compound l j s =>
      if k = l ∧ (k = .sequences ∨ k = .tables) then
        (lists ⟨i, r⟩ ⟨j, s⟩).map fun m => .compound k m.initial m.repeated
      else none

namespace Segment

/-- Where a walk along two segments stops. -/
inductive Walk where
  /-- One segment is used up; of the other, the rest is left. -/
  | exhausted (common left right : Segment)
  /-- An argument, of this presence, cannot satisfy both constraints. -/
  | contradiction (common : Segment) (presence : Presence)
  deriving Repr

def Walk.cons (r : Run) : Walk → Walk
  | .exhausted c x y => .exhausted (r :: c) x y
  | .contradiction c p => .contradiction (r :: c) p

/-- Intersects two segments argument by argument, a run at a time. -/
def walk (meet : Shape → Shape → Option Shape) : Segment → Segment → Walk
  | [], s => .exhausted [] [] s
  | r :: s, [] => .exhausted [] (r :: s) []
  | q :: s, r :: t =>
      let presence := q.presence.combine r.presence
      match meet q.shape r.shape with
      | none => .contradiction [] presence
      | some shape =>
          if q.count < r.count then
            (walk meet s (r.withCount (r.count - q.count) :: t)).cons ⟨q.count, presence, shape⟩
          else if r.count < q.count then
            (walk meet (q.withCount (q.count - r.count) :: s) t).cons ⟨r.count, presence, shape⟩
          else (walk meet s t).cons ⟨q.count, presence, shape⟩
  termination_by s t => s.length + t.length

end Segment

/-- Two constraints on the same argument, as far as both runs reach; otherwise the presence of
the argument that cannot satisfy both. -/
def Run.meetWith (lists : ArgList → ArgList → Option ArgList) (a b : Run) : Except Presence Run :=
  let presence := a.presence.combine b.presence
  match a.shape.meetWith lists b.shape with
  | none => .error presence
  | some shape => .ok ⟨min a.count b.count, presence, shape⟩

namespace ArgList

/-- Ends a list before an argument of this presence, if there is one. -/
def endBefore (s : Segment) : Option Presence → Option ArgList
  | some .required => (finite s).backtrack
  | _ => some (finite s)

/-- The common list, with `lists` to intersect element lists. -/
def intersectWith (lists : ArgList → ArgList → Option ArgList) (a b : ArgList) : Option ArgList :=
  let meet := Shape.meetWith lists
  let m := Segment.extent a.repeated
  let n := Segment.extent b.repeated
  let a := a.unfold (n / m.gcd n)
  let b := b.unfold (m / m.gcd n)
  let k := max (Segment.extent a.initial) (Segment.extent b.initial)
  let a := a.rotate k
  let b := b.rotate k
  let common :=
    match Segment.walk meet a.initial b.initial with
    | .contradiction c p => endBefore c (some p)
    | .exhausted c left right =>
        if a.isFinite || b.isFinite then
          endBefore c (Segment.firstPresence (left ++ a.repeated ++ right ++ b.repeated))
        else
          match Segment.walk meet a.repeated b.repeated with
          | .contradiction d p => endBefore (c ++ d) (some p)
          | .exhausted d _ _ => some ⟨c, d⟩
  common.map normalizeOutermost

/-- The intersection of lists whose compound shapes are nested at most `d` deep. -/
def intersectTo : Nat → ArgList → ArgList → Option ArgList
  | 0 => intersectWith fun _ _ => none
  | d + 1 => intersectWith (intersectTo d)

/-- The arguments that satisfy both lists, in normal form; none if there are none. Two element
lists meet only where both lists have one, so the shallower list bounds the nesting. -/
def intersect (a b : ArgList) : Option ArgList :=
  intersectTo (min a.depth b.depth) a b

/-- The intersection with the empty list. -/
def intersectEmpty (l : ArgList) : Option ArgList :=
  if l.firstPresence = some .required then none else some empty

end ArgList

/-- The shape of a value that has both shapes. -/
def Shape.meet (s t : Shape) : Option Shape :=
  s.meetWith (ArgList.intersectTo (min s.depth t.depth)) t

/-- Two constraints on the same argument. -/
def Run.meet (a b : Run) : Except Presence Run :=
  a.meetWith (ArgList.intersectTo (min a.depth b.depth)) b

end CatalogLint
