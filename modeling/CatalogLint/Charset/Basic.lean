/-!
# Character sets of catalogs

A catalog names the character set of its strings in its header. Which labels name a set, and what
bytes spell in it, is taken from outside: whatever is read from a catalog depends on a `Charsets`,
and nothing is assumed of it.
-/
namespace CatalogLint

/-- A character set. Sets are told apart by their names. -/
structure Charset where
  name : String
  deriving DecidableEq, Repr

def Charset.utf8 : Charset :=
  ⟨"UTF-8"⟩

/-- The character sets that can be named. -/
class Charsets where
  /-- The set that a label names. -/
  ofLabel? : List Char → Option Charset
  /-- The text that bytes spell in a set, and whether it is damaged. -/
  decode : Charset → List UInt8 → List Char × Bool

end CatalogLint
