import CatalogLint.ArgList.Comparison
import CatalogLint.Stored.Intersection

/-!
# Comparing stored lists

The comparison of `CatalogLint.ArgList.Comparison` as it is carried out on what is stored: a
subset is found by an intersection, of which the lengths have to fit the word.
-/
namespace CatalogLint

namespace StoredList

def isEmpty (l : StoredList) : Bool :=
  l.initial.runs.isEmpty && l.repeated.runs.isEmpty

/-- The presence of the first argument. -/
def firstPresence (l : StoredList) : Option Presence :=
  (l.initial.runs.head?.or l.repeated.runs.head?).map StoredRun.presence

/-- The intersection with the empty list. -/
def intersectEmpty (l : StoredList) : Option StoredList :=
  if l.firstPresence = some .required then none else some empty

/-- The arguments that satisfy both lists; with no arguments, no lengths are needed. -/
def common (w : Word) (a b : StoredList) : Checked (Option StoredList) :=
  if b.isEmpty then return a.intersectEmpty else a.intersect w b

/-- Do the lists agree as asked? -/
def agrees (w : Word) (agreement : Agreement) (message translation : StoredList) :
    Checked Bool :=
  match agreement with
  | .equivalent => return message = translation
  | .subset => do
      match ← message.common w translation with
      | none => return false
      | some l => do
          let l ← l.normalize w
          return l = translation

end StoredList

end CatalogLint
