import CatalogLint.Argument.Category

/-!
# Runs of equally constrained arguments

A `Run` states one constraint for `count` consecutive arguments: whether the argument list may
end before them, and the shape of the value. A value of compound shape is formatted element by
element, and its elements are themselves the arguments of an eventually periodic list: `initial`
first, then `repeated` over and over.

Equality is structural. That two equal lists of arguments have equal descriptions holds only of
normal forms and is not a matter of this module.
-/
namespace CatalogLint

/-- Whether the argument list may end right before an argument. -/
inductive Presence where
  | required | optional
  deriving DecidableEq, Repr

/-- An argument under two constraints is required as soon as one of them requires it. -/
def Presence.combine : Presence → Presence → Presence
  | .optional, .optional => .optional
  | _, _ => .required

mutual

inductive Shape where
  | plain (kinds : Kinds)
  | compound (kinds : Kinds) (initial repeated : List Run)
  deriving Repr

structure Run where
  count : Nat
  presence : Presence
  shape : Shape
  deriving Repr

end

mutual

def Shape.decEq : (s t : Shape) → Decidable (s = t)
  | .plain k, .plain l => decidable_of_iff (k = l) (by simp)
  | .plain _, .compound .. | .compound .., .plain _ => isFalse nofun
  | .compound k i r, .compound l j s =>
      match decEq k l, Run.decEqList i j, Run.decEqList r s with
      | isTrue hk, isTrue hi, isTrue hr => isTrue (by rw [hk, hi, hr])
      | isFalse h, _, _ | _, isFalse h, _ | _, _, isFalse h =>
          isFalse fun e => by cases e; exact h rfl

def Run.decEq : (a b : Run) → Decidable (a = b)
  | ⟨m, p, s⟩, ⟨n, q, t⟩ =>
      match Nat.decEq m n, instDecidableEqPresence p q, s.decEq t with
      | isTrue hm, isTrue hp, isTrue hs => isTrue (by rw [hm, hp, hs])
      | isFalse h, _, _ | _, isFalse h, _ | _, _, isFalse h =>
          isFalse fun e => by cases e; exact h rfl

def Run.decEqList : (xs ys : List Run) → Decidable (xs = ys)
  | [], [] => isTrue rfl
  | [], _ :: _ | _ :: _, [] => isFalse nofun
  | x :: xs, y :: ys =>
      match x.decEq y, Run.decEqList xs ys with
      | isTrue hx, isTrue hs => isTrue (by rw [hx, hs])
      | isFalse h, _ | _, isFalse h => isFalse fun e => by cases e; exact h rfl

end

instance : DecidableEq Shape := Shape.decEq
instance : DecidableEq Run := Run.decEq

mutual

/-- How many compound shapes are nested in one another. -/
def Shape.depth : Shape → Nat
  | .plain _ => 0
  | .compound _ i r => max (Run.depthList i) (Run.depthList r) + 1

def Run.depth : Run → Nat
  | ⟨_, _, s⟩ => s.depth

def Run.depthList : List Run → Nat
  | [] => 0
  | r :: rs => max r.depth (Run.depthList rs)

end

namespace Shape

def kinds : Shape → Kinds
  | .plain k => k
  | .compound k _ _ => k

def isCompound : Shape → Bool
  | .plain _ => false
  | .compound .. => true

/-- Nothing is known of the argument. -/
def any : Shape :=
  .plain .any

/-- The admissible categories in words; the elements of a compound value are not described. -/
def describe : Shape → String
  | .plain k => if k = .any then "any type" else k.names
  | .compound k _ _ => "compound " ++ k.names

end Shape

namespace Run

def withCount (r : Run) (n : Nat) : Run :=
  { r with count := n }

/-- The same constraint, for however many arguments. -/
def same (a b : Run) : Bool :=
  a.presence = b.presence ∧ a.shape = b.shape

def isRequired (r : Run) : Bool :=
  r.presence = .required

end Run

end CatalogLint
