/-!
# Faults of format strings

Why a format string is refused. Directives are counted from one, within their own level: inside a
compound directive the count starts anew.
-/
namespace CatalogLint

/-- What an explicit argument number is written for. -/
inductive NumberUse where
  | conversion | width | precision
  deriving DecidableEq, Repr

inductive Fault where
  | unfinishedDirective
  | numberZero (use : NumberUse) (directive : Nat)
  | numberTooLarge (directive : Nat)
  | rangeReversed (directive : Nat)
  | compoundUnbounded (directive : Nat)
  | compoundArity (directive count : Nat)
  | barOutsideCompound
  | unfinishedDelimiter
  | directiveInDelimiter (directive : Nat)
  | unmatchedClose
  | unmatchedOpen
  | pastLastArgument (directive : Nat)
  | unknownSpecifier (directive : Nat) (specifier : Char)
  | conflictingUses
  deriving DecidableEq, Repr

/-- The number, as a message calls it. -/
def NumberUse.phrase : NumberUse → String
  | .conversion => "the argument number"
  | .width => "the width's argument number"
  | .precision => "the precision's argument number"

namespace Fault

def inDirective (n : Nat) (complaint : String) : String :=
  s!"In the directive number {n}, {complaint}"

def message : Fault → String
  | .unfinishedDirective => "The string ends in the middle of a directive."
  | .numberZero use n => inDirective n s!"{use.phrase} 0 is not a positive integer."
  | .numberTooLarge n => inDirective n "the argument number is too large."
  | .rangeReversed n =>
      inDirective n "the first argument number is greater than the second argument number."
  | .compoundUnbounded n =>
      inDirective n "the compound specifier consumes a variable number of arguments."
  | .compoundArity n count => inDirective n s!"the compound specifier consumes {count} arguments."
  | .barOutsideCompound => "Found '%|' outside of '%(...%)'."
  | .unfinishedDelimiter => "The string ends in the middle of a compound specifier."
  | .directiveInDelimiter n =>
      inDirective n "there is an invalid directive in the delimiter part of a compound specifier."
  | .unmatchedClose => "Found '%)' without matching '%('."
  | .unmatchedOpen => "Found '%(' without matching '%)'."
  | .pastLastArgument n =>
      s!"The directive number {n} references an argument after the last argument."
  | .unknownSpecifier n c =>
      inDirective n s!"the character '{c}' is not a valid conversion specifier."
  | .conflictingUses => "The string refers to some argument in incompatible ways."

end Fault

end CatalogLint
