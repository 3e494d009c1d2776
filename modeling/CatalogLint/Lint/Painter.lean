import CatalogLint.Lint.Diagnostic
import CatalogLint.Stored.Arithmetic

/-!
# Painting highlight by highlight

A painter goes through the highlights of a text and keeps what it has written and the byte up to
which the text is written. From there it asks for the text before a highlight and for the highlight
itself, and passes over the highlight where one of them is no piece of the text. The rest of the
text is taken without asking: that it starts inside a character would be a defect.
-/
namespace CatalogLint

structure Painter where
  written : List Char
  /-- The byte up to which the text is written. -/
  place : Nat
  deriving DecidableEq, Repr

namespace Painter

def start : Painter :=
  ⟨[], 0⟩

/-- Paints a highlight, or passes over it. -/
def wrap (paint : List Char → List Char) (cs : List Char) (p : Painter) (a : Span) : Painter :=
  if a.start < p.place then p
  else
    match Text.piece? cs p.place a.start, Text.piece? cs a.start a.stop with
    | some before, some piece => ⟨p.written ++ before ++ paint piece, a.stop⟩
    | _, _ => p

/-- Writes the rest of the text. -/
def finish (cs : List Char) (p : Painter) : Checked (List Char) :=
  match Text.dropBytes p.place cs with
  | some rest => .ok (p.written ++ rest)
  | none => .error .cutCharacter

def run (paint : List Char → List Char) (cs : List Char) (spans : List Span) :
    Checked (List Char) :=
  (spans.foldl (wrap paint cs) start).finish cs

end Painter

end CatalogLint
