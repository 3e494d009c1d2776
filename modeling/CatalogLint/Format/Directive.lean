import CatalogLint.Argument.Category
import CatalogLint.Format.Fault

/-!
# Directives of a format string

A directive is written

    %[position][flags][width][.precision][,separator]specifier

with a position `m$`, `m:n$` or `m:$`, flags out of space, `+`, `-`, `#`, `0` and `=`, a width
and a precision of digits, `*` or `*m$`, and a separator of digits or `*`, then `?` when the
separating character is an argument too. A compound specifier `(...%)`, or `(...%|...%)` with a
delimiter, holds directives for the elements of one value.

`Directives` is what scanning leaves of a string at one level of nesting: the directives in
order, up to where the level ends or the string turns out to be faulty. Places are byte offsets
in the whole string.
-/
namespace CatalogLint

/-- The argument that holds a width or a precision. -/
inductive Reference where
  /-- The argument after the last one used. -/
  | next
  | numbered (m : Nat)
  deriving DecidableEq, Repr

/-- The arguments that the specifier formats; numbers start at one. -/
inductive Position where
  | next
  | single (m : Nat)
  | range (first last : Nat)
  | toLast (first : Nat)
  deriving DecidableEq, Repr

/-- What a directive says before its specifier. -/
structure Head where
  position : Position
  /-- A space is among the flags. -/
  spaced : Bool
  width : Option Reference
  precision : Option Reference
  /-- The number of digits between separators is an argument. -/
  groupSize : Bool
  /-- The separating character is an argument. -/
  separator : Bool
  deriving DecidableEq, Repr

inductive Directives where
  /-- The level ends: the string at the outermost level, the compound directive inside one. -/
  | done
  /-- The string ends inside a compound directive. -/
  | unclosed
  /-- A directive cannot be read; the fault shows at `place`. -/
  | faulty (start : Nat) (fault : Fault) (place : Nat)
  /-- A directive from `start` up to `stop`, for values of these kinds. -/
  | value (start : Nat) (head : Head) (kinds : Kinds) (stop : Nat) (rest : Directives)
  /-- A compound directive. A fault of its body also shows at `opening`. -/
  | compound (start : Nat) (head : Head) (opening : Nat) (body : Directives) (stop : Nat)
      (rest : Directives)
  /-- A compound directive whose body does not come to its end. -/
  | broken (start : Nat) (opening : Nat) (body : Directives)
  deriving DecidableEq, Repr

/-- The kinds of values that a one-letter specifier formats. -/
def specifierKinds : Char → Option Kinds
  | 's' => some .any
  | 'c' => some (.ofList [.char])
  | 'd' | 'u' | 'b' | 'o' => some (.ofList [.bool, .integer, .char])
  | 'x' | 'X' => some (.ofList [.bool, .integer, .char, .pointer])
  | 'e' | 'E' | 'f' | 'F' | 'g' | 'G' | 'a' | 'A' => some (.ofList [.integer, .floating])
  | 'r' => some (.ofList [.bool, .integer, .floating, .char, .array, .range])
  | _ => none

end CatalogLint
