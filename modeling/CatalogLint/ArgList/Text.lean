import CatalogLint.ArgList.Basic

/-!
# Argument lists in writing

A list is written in parentheses, one word for each argument, the loop after a bar. A word is
`*` for any value or the letters of its categories; the element list of a compound value follows
them, and `1` and `2` stand for the letters of the two kinds of compound directives. An optional
argument has a dot before it. Of a long run one argument is written, with the length of the run.
-/
namespace CatalogLint

/-- The longest run that is written argument by argument. -/
def Run.longestWritten : Nat := 8

def Run.writeTimes (n : Nat) : List Char :=
  if n > Run.longestWritten then '×' :: (toString n).toList else []

mutual

def Shape.write : Shape → List Char
  | .plain k => if k = .any then ['*'] else k.letters
  | .compound k i r =>
      let head := if k = .sequences then ['1'] else if k = .tables then ['2'] else k.letters
      head ++ '(' :: [' '].intercalate (Run.writeList i) ++
        (if r.isEmpty then [] else ' ' :: '|' :: (Run.writeList r).flatMap (' ' :: ·)) ++ [')']

/-- The words for the arguments of a run. -/
def Run.write : Run → List (List Char)
  | ⟨n, p, s⟩ =>
      let word := (if p = .optional then ['.', ' '] else []) ++ s.write
      List.replicate (if n > Run.longestWritten then 1 else n) (word ++ Run.writeTimes n)

def Run.writeList : List Run → List (List Char)
  | [] => []
  | r :: rs => r.write ++ Run.writeList rs

end

namespace ArgList

def write (l : ArgList) : List Char :=
  '(' :: [' '].intercalate (Run.writeList l.initial) ++
    (if l.isFinite then [] else ' ' :: '|' :: (Run.writeList l.repeated).flatMap (' ' :: ·)) ++
    [')']

def text (l : ArgList) : String :=
  String.ofList l.write

end ArgList

/-- One argument of the run; how many there are is not written. -/
def Run.text (r : Run) : String :=
  String.ofList ((if r.presence = .optional then ['.', ' '] else []) ++ r.shape.write)

end CatalogLint
