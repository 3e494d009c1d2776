import CatalogLint.ArgList.Intersection

/-!
# Comparing the arguments of two messages

A translation may be asked to accept the same arguments as the message that it translates, or
only arguments that the message accepts too. Both lists have to be in normal form. A failed
comparison is explained by the first argument that the lists treat differently, if it is found
among the first positions.
-/
namespace CatalogLint

/-- What a translation has to satisfy. -/
inductive Agreement where
  /-- Both lists accept the same arguments. -/
  | equivalent
  /-- Whatever the translation accepts, the message accepts. -/
  | subset
  deriving DecidableEq, Repr

/-- The two strings under comparison. -/
inductive Side where
  | message | translation
  deriving DecidableEq, Repr

def Side.other : Side → Side
  | .message => .translation
  | .translation => .message

/-- How the strings are called in what is reported. -/
structure Labels where
  message : String
  translation : String
  deriving DecidableEq, Repr

def Labels.of (l : Labels) : Side → String
  | .message => l.message
  | .translation => l.translation

/-- What is said of a translation that does not satisfy it. -/
def Agreement.complaint (labels : Labels) : Agreement → String
  | .equivalent =>
      let both := s!"'{labels.message}' and '{labels.translation}'"
      s!"format specifications in {both} are not equivalent"
  | .subset =>
      let outside := s!"are not a subset of those in '{labels.message}'"
      s!"format specifications in '{labels.translation}' {outside}"

/-- The treatment of one argument differs; its number counts from one. -/
inductive Discrepancy where
  | onlyIn (side : Side) (number : Nat) (presence : Presence)
  | shapes (number : Nat) (message translation : Shape)
  | presence (number : Nat) (required : Side)
  deriving DecidableEq, Repr

namespace Discrepancy

def number : Discrepancy → Nat
  | .onlyIn _ n _ | .shapes n _ _ | .presence n _ => n

def text (labels : Labels) : Discrepancy → String
  | .onlyIn side n p =>
      let use := if p = .required then "is used" else "may be used"
      s!"argument {n} {use} in '{labels.of side}' but not in '{labels.of side.other}'"
  | .shapes n s t =>
      let message := s!"{s.describe} in '{labels.message}'"
      let translation := s!"{t.describe} in '{labels.translation}'"
      s!"argument {n} is {message} but {translation}"
  | .presence n side =>
      s!"argument {n} is required in '{labels.of side}' but optional in '{labels.of side.other}'"

end Discrepancy

namespace ArgList

/-- Compares what two lists say of one argument. -/
def discrepancyAt (a b : ArgList) (n : Nat) : Option Discrepancy :=
  match a.argAt n, b.argAt n with
  | none, none => none
  | some q, none => some (.onlyIn .message (n + 1) q.presence)
  | none, some r => some (.onlyIn .translation (n + 1) r.presence)
  | some q, some r =>
      if q.shape ≠ r.shape then some (.shapes (n + 1) q.shape r.shape)
      else if q.presence ≠ r.presence then
        some (.presence (n + 1) (if q.isRequired then .message else .translation))
      else none

/-- The positions that are looked at to explain a difference, never more than this. -/
def mostScanned : Nat := 1024

/-- The number of positions after which both lists repeat together. -/
def scanLimit (a b : ArgList) : Nat :=
  let period (l : ArgList) := max (Segment.extent l.repeated) 1
  min mostScanned
    (max (Segment.extent a.initial) (Segment.extent b.initial) + (period a).lcm (period b))

def firstDiscrepancy (a b : ArgList) : Option Discrepancy :=
  (List.range (scanLimit a b)).findSome? (discrepancyAt a b)

/-- Do the lists agree as asked? -/
def agrees (agreement : Agreement) (message translation : ArgList) : Bool :=
  match agreement with
  | .equivalent => message = translation
  | .subset =>
      let common :=
        if translation.isEmpty then message.intersectEmpty else message.intersect translation
      common.map normalize = some translation

/-- The complaint about two lists that do not agree as asked, none if they do. -/
def compare (agreement : Agreement) (labels : Labels) (message translation : ArgList) :
    Option String :=
  if agrees agreement message translation then none
  else
    let complaint := agreement.complaint labels
    match firstDiscrepancy message translation with
    | some d => some s!"{complaint} ({d.text labels})"
    | none => some complaint

end ArgList

end CatalogLint
