import CatalogLint.Stored.Normal

/-!
# Intersection of stored lists

The walk of `CatalogLint.ArgList.Intersection` as it is carried out on what is stored. It counts
how many arguments of the two runs under it are left.
-/
namespace CatalogLint

/-- The shape of a value that has both shapes, with `lists` to intersect element lists. -/
def StoredShape.meetWith (lists : StoredList → StoredList → Checked (Option StoredList))
    (s t : StoredShape) : Checked (Option StoredShape) :=
  if s.isAny then return some t
  else if t.isAny then return some s
  else if s.compound && t.compound then
    if s.kinds = t.kinds ∧ (s.kinds = .sequences ∨ s.kinds = .tables) then
      match s.elements, t.elements with
      | some l, some m => do
          let common ← lists l m
          return common.map fun r => ⟨s.kinds, true, some r⟩
      | _, _ => return none
    else return none
  else
    let kinds := s.kinds.inter t.kinds
    if kinds.isEmpty then return none
    else if s.compound then return some ⟨kinds, true, s.elements⟩
    else if t.compound then return some ⟨kinds, true, t.elements⟩
    else return some ⟨kinds, false, none⟩

/-- Two constraints on the same argument, as far as both runs reach; otherwise the presence of
the argument that cannot satisfy both. -/
def StoredRun.meetWith (lists : StoredList → StoredList → Checked (Option StoredList))
    (a b : StoredRun) : Checked (Except Presence StoredRun) := do
  let presence := a.presence.combine b.presence
  match ← a.shape.meetWith lists b.shape with
  | none => return .error presence
  | some shape => return .ok ⟨min a.count b.count, presence, shape⟩

namespace StoredSegment

/-- Where a walk along two segments stops. -/
inductive Walk where
  /-- One segment is used up. Of the other, a run of this presence is next. -/
  | exhausted (common : StoredSegment) (left right : Option Presence)
  /-- An argument, of this presence, cannot satisfy both constraints. -/
  | contradiction (common : StoredSegment) (presence : Presence)

/-- The runs from the next index on, and how many arguments of the first one are left. -/
structure Ahead where
  index : Nat
  left : Nat
  runs : List StoredRun

namespace Ahead

def start (runs : List StoredRun) : Ahead :=
  ⟨0, (runs.head?.map StoredRun.count).getD 0, runs⟩

/-- Walks on along the first run. -/
def advance (w : Word) (a : Ahead) (count : Nat) : Checked Ahead := do
  let left ← Checked.sub a.left count
  if left = 0 then do
    let index ← w.add a.index 1
    let runs := a.runs.tail
    return ⟨index, (runs.head?.map StoredRun.count).getD 0, runs⟩
  else return { a with left }

def presence (a : Ahead) : Option Presence :=
  a.runs.head?.map StoredRun.presence

end Ahead

/-- Intersects two segments argument by argument, a run at a time, and adds what they have in
common to a segment. There are so many steps at most. -/
def walk (w : Word) (lists : StoredList → StoredList → Checked (Option StoredList)) :
    Nat → Ahead → Ahead → StoredSegment → Checked Walk
  | 0, _, _, _ => .error .endless
  | steps + 1, a, b, common =>
      match a.runs, b.runs with
      | q :: _, r :: _ => do
          let count := min a.left b.left
          match ← q.meetWith lists r with
          | .error presence => return .contradiction common presence
          | .ok run => do
              let common ← common.push w (run.withCount count)
              let a ← a.advance w count
              let b ← b.advance w count
              walk w lists steps a b common
      | _, _ => return .exhausted common a.presence b.presence

def walkAll (w : Word) (lists : StoredList → StoredList → Checked (Option StoredList))
    (s t common : StoredSegment) : Checked Walk :=
  walk w lists (s.runs.length + t.runs.length + 1) (.start s.runs) (.start t.runs) common

end StoredSegment

namespace StoredList
variable (w : Word)

def firstLoopPresence (l : StoredList) : Option Presence :=
  l.repeated.runs.head?.map StoredRun.presence

/-- Ends a finite list before an argument of this presence, if there is one. -/
def endBefore (l : StoredList) : Option Presence → Checked (Option StoredList)
  | some .required => l.backtrack
  | _ => return some l

/-- Gives both loops the same period. -/
def alignLoops (a b : StoredList) : Checked (StoredList × StoredList) :=
  if !a.isFinite && !b.isFinite then do
    let m := a.repeated.length
    let n := b.repeated.length
    let i ← Checked.div n (m.gcd n)
    let a ← a.unfold w i
    let j ← Checked.div m (m.gcd n)
    let b ← b.unfold w j
    return (a, b)
  else return (a, b)

/-- Gives both initial segments the same extent. -/
def alignInitials (a b : StoredList) : Checked (StoredList × StoredList) := do
  let k := max a.initial.length b.initial.length
  let c ← a.rotate w k
  let d ← b.rotate w k
  return (c, d)

/-- The common list of aligned lists. -/
def walkLists (lists : StoredList → StoredList → Checked (Option StoredList))
    (a b : StoredList) : Checked (Option StoredList) := do
  match ← StoredSegment.walkAll w lists a.initial b.initial .empty with
  | .contradiction c p => endBefore ⟨c, .empty⟩ (some p)
  | .exhausted c left right =>
      match a.isFinite, b.isFinite with
      | true, true => endBefore ⟨c, .empty⟩ (left.or right)
      | true, false => endBefore ⟨c, .empty⟩ (right.or b.firstLoopPresence)
      | false, true => endBefore ⟨c, .empty⟩ (left.or a.firstLoopPresence)
      | false, false =>
          match ← StoredSegment.walkAll w lists a.repeated b.repeated .empty with
          | .contradiction d p => do
              let l ← StoredList.appendLoop w ⟨c, d⟩
              l.endBefore (some p)
          | .exhausted d _ _ => return some ⟨c, d⟩

/-- The common list, with `lists` to intersect element lists. -/
def intersectWith (lists : StoredList → StoredList → Checked (Option StoredList))
    (a b : StoredList) : Checked (Option StoredList) := do
  a.verify w
  b.verify w
  let (a, b) ← alignLoops w a b
  let (a, b) ← alignInitials w a b
  match ← walkLists w lists a b with
  | none => return none
  | some l => do
      let l ← l.normalizeOutermost w
      return some l

/-- The intersection of lists whose compound shapes are nested at most `d` deep. -/
def intersectTo : Nat → StoredList → StoredList → Checked (Option StoredList)
  | 0 => intersectWith w fun _ _ => .error .endless
  | d + 1 => intersectWith w (intersectTo d)

/-- How deep compound shapes are nested. -/
def depth (l : StoredList) : Nat :=
  l.erase.depth

/-- The arguments that satisfy both lists, in normal form; none if there are none. -/
def intersect (a b : StoredList) : Checked (Option StoredList) :=
  intersectTo w (min a.depth b.depth) a b

end StoredList

/-- Two constraints on the same argument. -/
def StoredRun.meet (w : Word) (a b : StoredRun) : Checked (Except Presence StoredRun) :=
  a.meetWith (StoredList.intersect w) b

end CatalogLint
