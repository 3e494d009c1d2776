import CatalogLint.ArgList.Basic
import CatalogLint.Stored.Arithmetic

/-!
# Stored lists

How a machine stores argument lists: a segment has its number of arguments beside its runs, so
that nothing has to be counted, and a compound type is one thing, the element list that belongs to
it another. Both may come to disagree. `verify` checks that they do not, at every level of
nesting; `ArgList.stored` is how a list should be stored.
-/
namespace CatalogLint

mutual

/-- A type and, for a compound one, the list that the elements follow. -/
structure StoredShape where
  kinds : Kinds
  compound : Bool
  elements : Option StoredList
  deriving Repr

structure StoredRun where
  count : Nat
  presence : Presence
  shape : StoredShape
  deriving Repr

structure StoredSegment where
  runs : List StoredRun
  /-- The number of arguments. -/
  length : Nat
  deriving Repr

structure StoredList where
  initial : StoredSegment
  repeated : StoredSegment
  deriving Repr

end

mutual

def StoredShape.decEq : (s t : StoredShape) → Decidable (s = t)
  | ⟨k, c, l⟩, ⟨j, d, m⟩ =>
      match decEq k j, decEq c d, StoredList.decEqOption l m with
      | isTrue hk, isTrue hc, isTrue hl => isTrue (by rw [hk, hc, hl])
      | isFalse h, _, _ | _, isFalse h, _ | _, _, isFalse h =>
          isFalse fun e => by cases e; exact h rfl

def StoredRun.decEq : (a b : StoredRun) → Decidable (a = b)
  | ⟨m, p, s⟩, ⟨n, q, t⟩ =>
      match Nat.decEq m n, instDecidableEqPresence p q, s.decEq t with
      | isTrue hm, isTrue hp, isTrue hs => isTrue (by rw [hm, hp, hs])
      | isFalse h, _, _ | _, isFalse h, _ | _, _, isFalse h =>
          isFalse fun e => by cases e; exact h rfl

def StoredRun.decEqList : (xs ys : List StoredRun) → Decidable (xs = ys)
  | [], [] => isTrue rfl
  | [], _ :: _ | _ :: _, [] => isFalse nofun
  | x :: xs, y :: ys =>
      match x.decEq y, StoredRun.decEqList xs ys with
      | isTrue hx, isTrue hs => isTrue (by rw [hx, hs])
      | isFalse h, _ | _, isFalse h => isFalse fun e => by cases e; exact h rfl

def StoredSegment.decEq : (s t : StoredSegment) → Decidable (s = t)
  | ⟨xs, m⟩, ⟨ys, n⟩ =>
      match StoredRun.decEqList xs ys, Nat.decEq m n with
      | isTrue hx, isTrue hm => isTrue (by rw [hx, hm])
      | isFalse h, _ | _, isFalse h => isFalse fun e => by cases e; exact h rfl

def StoredList.decEq : (l m : StoredList) → Decidable (l = m)
  | ⟨i, r⟩, ⟨j, s⟩ =>
      match i.decEq j, r.decEq s with
      | isTrue hi, isTrue hr => isTrue (by rw [hi, hr])
      | isFalse h, _ | _, isFalse h => isFalse fun e => by cases e; exact h rfl

def StoredList.decEqOption : (l m : Option StoredList) → Decidable (l = m)
  | none, none => isTrue rfl
  | none, some _ | some _, none => isFalse nofun
  | some l, some m =>
      match l.decEq m with
      | isTrue h => isTrue (by rw [h])
      | isFalse h => isFalse fun e => by cases e; exact h rfl

end

instance : DecidableEq StoredShape := StoredShape.decEq
instance : DecidableEq StoredRun := StoredRun.decEq
instance : DecidableEq StoredSegment := StoredSegment.decEq
instance : DecidableEq StoredList := StoredList.decEq

section Storing

mutual

def Shape.stored : Shape → StoredShape
  | .plain k => ⟨k, false, none⟩
  | .compound k i r =>
      ⟨k, true, some ⟨⟨Run.storedList i, Segment.extent i⟩,
        ⟨Run.storedList r, Segment.extent r⟩⟩⟩

def Run.stored : Run → StoredRun
  | ⟨n, p, s⟩ => ⟨n, p, s.stored⟩

def Run.storedList : List Run → List StoredRun
  | [] => []
  | r :: s => r.stored :: Run.storedList s

end

def Segment.stored (s : Segment) : StoredSegment :=
  ⟨s.map Run.stored, extent s⟩

/-- The list with the number of arguments of every segment. -/
def ArgList.stored (l : ArgList) : StoredList :=
  ⟨Segment.stored l.initial, Segment.stored l.repeated⟩

end Storing

section Erasing

mutual

def StoredShape.erase : StoredShape → Shape
  | ⟨k, _, none⟩ => .plain k
  | ⟨k, _, some ⟨i, r⟩⟩ => .compound k i.erase r.erase

def StoredRun.erase : StoredRun → Run
  | ⟨n, p, s⟩ => ⟨n, p, s.erase⟩

def StoredRun.eraseList : List StoredRun → List Run
  | [] => []
  | r :: s => r.erase :: StoredRun.eraseList s

def StoredSegment.erase : StoredSegment → Segment
  | ⟨runs, _⟩ => StoredRun.eraseList runs

end

/-- The list without its stored numbers. -/
def StoredList.erase (l : StoredList) : ArgList :=
  ⟨l.initial.erase, l.repeated.erase⟩

end Erasing

namespace StoredShape

def isAny (s : StoredShape) : Bool :=
  s.kinds = .any && !s.compound

end StoredShape

namespace StoredRun

def withCount (r : StoredRun) (n : Nat) : StoredRun :=
  { r with count := n }

def same (a b : StoredRun) : Bool :=
  a.presence = b.presence ∧ a.shape = b.shape

end StoredRun

namespace StoredList

def empty : StoredList :=
  ⟨⟨[], 0⟩, ⟨[], 0⟩⟩

def unconstrained : StoredList :=
  ⟨⟨[], 0⟩, ⟨[⟨1, .optional, ⟨.any, false, none⟩⟩], 1⟩⟩

def isFinite (l : StoredList) : Bool :=
  l.repeated.runs.isEmpty

end StoredList

section Verifying
variable (w : Word)

mutual

def StoredShape.verify : StoredShape → Checked Unit
  | ⟨kinds, compound, elements⟩ => do
      Checked.demand (compound = true ∨ kinds.isEmpty = false) .emptyType
      Checked.demand (compound = elements.isSome) .strayElements
      StoredList.verifyOption elements

def StoredRun.verify : StoredRun → Checked Unit
  | ⟨count, _, shape⟩ => do
      Checked.demand (0 < count) .emptyRun
      shape.verify

/-- Checks all runs and counts their arguments, of which there are `total` before. -/
def StoredRun.verifyList : List StoredRun → Nat → Checked Nat
  | [], total => return total
  | ⟨count, presence, shape⟩ :: runs, total => do
      StoredRun.verify ⟨count, presence, shape⟩
      let total ← w.add total count
      StoredRun.verifyList runs total

def StoredSegment.verify : StoredSegment → Checked Unit
  | ⟨runs, length⟩ => do
      let total ← StoredRun.verifyList runs 0
      Checked.demand (total = length) .wrongLength

def StoredList.verify : StoredList → Checked Unit
  | ⟨initial, repeated⟩ => do
      initial.verify
      repeated.verify

def StoredList.verifyOption : Option StoredList → Checked Unit
  | none => return ()
  | some l => l.verify

end

end Verifying

end CatalogLint
