import CatalogLint.ArgList.Intersection

/-!
# Narrowing a list

What a directive says about its arguments is added to a list in place: some arguments are
required, no argument follows, some arguments have a shape. Every operation answers with no list
when nothing satisfies the constraints any more.
-/
namespace CatalogLint

/-- Meets every run with a shape until one cannot have it: the runs that could, and the rest. -/
def Segment.restrict (shape : Shape) : Segment → Segment × Segment
  | [] => ([], [])
  | r :: s =>
      match r.shape.meet shape with
      | none => ([], r :: s)
      | some t =>
          let (done, rest) := Segment.restrict shape s
          ({ r with shape := t } :: done, rest)

namespace ArgList

/-- Requires the arguments at all positions up to `n`. -/
def require (l : ArgList) (n : Nat) : Option ArgList :=
  if l.isFinite && Segment.extent l.initial ≤ n then none
  else
    let l := l.split (n + 1)
    some { l with
      initial := (Segment.takeArgs (n + 1) l.initial).map ({ · with presence := .required }) ++
        Segment.dropArgs (n + 1) l.initial }

/-- Forbids the arguments at position `n` and later. -/
def endAt (l : ArgList) (n : Nat) : Option ArgList :=
  if l.isFinite && Segment.extent l.initial ≤ n then some l
  else
    let l := l.split n
    endBefore (Segment.takeArgs n l.initial)
      (Segment.firstPresence (Segment.dropArgs n l.initial ++ l.repeated))

/-- Gives the arguments at positions `first` to `last` a shape. The list ends at the first of
them that cannot have it. -/
def restrict (l : ArgList) (first last : Nat) (shape : Shape) : Option ArgList :=
  let l := if first = last then l.unshare first else (l.split first).split (last + 1)
  let before := Segment.takeArgs first l.initial
  let rest := Segment.dropArgs first l.initial
  let (done, failed) := Segment.restrict shape (Segment.takeArgs (last + 1 - first) rest)
  let after := Segment.dropArgs (last + 1 - first) rest
  let l := { l with initial := before ++ done ++ failed ++ after }
  if failed.isEmpty then some l else l.endAt (first + Segment.extent done)

/-- Gives the arguments at position `n` and later a shape. The list ends at the first of them
that cannot have it. -/
def restrictFrom (l : ArgList) (n : Nat) (shape : Shape) : Option ArgList :=
  let l := l.split n
  let before := Segment.takeArgs n l.initial
  let (done, failed) := Segment.restrict shape (Segment.dropArgs n l.initial)
  let initial := before ++ done ++ failed
  if !failed.isEmpty then endAt { l with initial } (n + Segment.extent done)
  else
    let (turned, failed) := Segment.restrict shape l.repeated
    let l : ArgList := ⟨initial, turned ++ failed⟩
    if failed.isEmpty then some l
    else l.endAt (Segment.extent initial + Segment.extent turned)

/-- Requires the arguments up to `last` and gives those from `first` on a shape. -/
def requireShape (l : ArgList) (first last : Nat) (shape : Shape) : Option ArgList := do
  let l ← l.require last
  l.restrict first last shape

end ArgList

end CatalogLint
