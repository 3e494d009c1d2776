import CatalogLint.Text.Split

/-!
# Format flags

A flag such as `c-format` says that the strings of an entry are format strings of a language,
`possible-c-format` that they may be, and `no-c-format` that they are not. Only one language is
understood; a flag of another language is a format flag all the same.
-/
namespace CatalogLint

/-- A language whose format strings are understood. -/
inductive Language where
  | d
  deriving DecidableEq, Repr

inductive FormatFlag where
  | declared (language : Option Language)
  | possible (language : Option Language)
  | refused (language : Option Language)
  deriving DecidableEq, Repr

namespace FormatFlag

def language? (name : List Char) : Option Language :=
  if name = ['d'] then some .d else none

/-- Reads a flag, none if it is no format flag. -/
def ofText? (flag : List Char) : Option FormatFlag :=
  (Text.dropEnd? "-format".toList flag).map fun name =>
    match Text.dropStart? "possible-".toList name with
    | some rest => .possible (language? rest)
    | none =>
        match Text.dropStart? "no-".toList name with
        | some rest => .refused (language? rest)
        | none => .declared (language? name)

end FormatFlag

end CatalogLint
