import CatalogLint.Text.Split

/-!
# Paths

A path is a string with slashes. Paths are compared step by step, so that a repeated slash, a slash
at the end and a `.` anywhere but in front make no difference.
-/
namespace CatalogLint

/-- The steps in the order in which they are sorted. -/
inductive PathStep where
  | root | here | parent
  | name (s : String)
  deriving DecidableEq, Ord, Repr

namespace Path

/-- The number of bytes that a path has at most. -/
def longest : Nat :=
  4095

/-- The number of bytes that a name has at most. -/
def longestName : Nat :=
  255

/-- What stands between the slashes. -/
def pieces (path : String) : List String :=
  (Text.splitOn '/' path.toList).map String.ofList

/-- The step in front that only the first piece can be. -/
def lead : List String → List PathStep
  | "" :: _ :: _ => [.root]
  | "." :: _ => [.here]
  | _ => []

def step? : String → Option PathStep
  | "" => none
  | "." => none
  | ".." => some .parent
  | s => some (.name s)

def steps (path : String) : List PathStep :=
  lead (pieces path) ++ (pieces path).filterMap step?

/-- One step from where some names lead down to. -/
def advance (names : List String) : PathStep → List String
  | .name s => names ++ [s]
  | .parent => names.dropLast
  | _ => names

/-- The names that lead down to where a path leads. -/
def names (path : String) : List String :=
  (steps path).foldl advance []

/-- The names that lead down to every folder on the way. -/
def foldersOnWay (path : String) : List (List String) :=
  let way := (steps path).dropLast
  (List.range way.length).map fun n => (way.take (n + 1)).foldl advance []

/-- The path `-` in any spelling means the standard input, not a file or folder of that name. -/
def isInput (path : String) : Bool :=
  steps path = [.name "-"]

def compare (a b : String) : Ordering :=
  Ord.compare (steps a) (steps b)

/-- The name of something in a folder. -/
def join (folder name : String) : String :=
  match folder.toList.getLast? with
  | none | some '/' => folder ++ name
  | _ => folder ++ "/" ++ name

/-- Drops the pieces in front that stay in place. -/
def dropHere : List Char → List Char
  | '/' :: cs => dropHere cs
  | '.' :: '/' :: cs => dropHere cs
  | cs => cs

/-- The path without `./` in front. -/
def shorten (path : String) : String :=
  match path.toList with
  | '.' :: '/' :: cs => String.ofList (dropHere cs)
  | _ => path

/-- Hidden names start with a dot. -/
def isHidden (name : String) : Bool :=
  name.toList.head? = some '.'

/-- Catalogs have the extension `po` behind a name that is not empty. -/
def isCatalogName (name : String) : Bool :=
  match name.toList.reverse with
  | 'o' :: 'p' :: '.' :: _ :: _ => true
  | _ => false

def isCatalog (path : String) : Bool :=
  match (steps path).getLast? with
  | some (.name s) => isCatalogName s
  | _ => false

end Path

end CatalogLint
