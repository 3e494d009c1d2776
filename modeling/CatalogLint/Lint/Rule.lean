import CatalogLint.Lint.Diagnostic

/-!
# Rules and their selection

The rules of a run are selected by severity, then by name, then some of them are left out by
name. A name that is not among the rules of the given severities is an error; the name `all`
always stands for all of them.
-/
namespace CatalogLint

inductive Rule where
  /-- A string that is hardly meant to be a format string is flagged as one. -/
  | unlikelyFormat
  /-- A translation does not accept the arguments of its message. -/
  | formats
  deriving DecidableEq, Repr

namespace Rule

def all : List Rule :=
  [.unlikelyFormat, .formats]

def name : Rule → String
  | .unlikelyFormat => "d-format-unlikely"
  | .formats => "d-formats"

def isDefault : Rule → Bool
  | .unlikelyFormat => false
  | .formats => true

def severity : Rule → Severity
  | .unlikelyFormat => .info
  | .formats => .error

def text [Painting] (color : Bool) (r : Rule) : String :=
  s!"{r.name} [{r.severity.text color}]"

theorem mem_all (r : Rule) : r ∈ all := by
  cases r <;> decide

end Rule

/-- The order of strings by code points. -/
def stringLe (a b : String) : Bool :=
  !(b < a)

/-- The names that are not known, each once and in order. -/
def unknownNames (names known : List String) : List String :=
  (names.filter fun n => n ≠ "all" && !known.contains n).eraseDups.mergeSort stringLe

/-- Which rules are asked for. -/
structure Selection where
  select : Option String
  ignore : Option String
  severities : List Severity
  deriving DecidableEq, Repr

inductive SelectionError where
  | unknownSelected (names : List String)
  | unknownIgnored (names : List String)
  deriving DecidableEq, Repr

def SelectionError.message : SelectionError → String
  | .unknownSelected names => "unknown selected rules: " ++ ", ".intercalate names
  | .unknownIgnored names => "unknown rules to ignore: " ++ ", ".intercalate names

namespace Selection

/-- The names in a list with commas. -/
def names (list : String) : List String :=
  (Text.splitOn ',' list.toList).map fun cs => String.ofList (Text.trim cs)

/-- The rules of the severities asked for, which are those that can be named. -/
def available (s : Selection) : List Rule :=
  Rule.all.filter fun r => s.severities.isEmpty || s.severities.contains r.severity

/-- The names in a list, if all of them are known. -/
def known (s : Selection) (list : String) (error : List String → SelectionError) :
    Except SelectionError (List String) :=
  match unknownNames (names list) (s.available.map Rule.name) with
  | [] => .ok (names list)
  | unknown => .error (error unknown)

def rules (s : Selection) : Except SelectionError (List Rule) := do
  let selected ←
    match s.select with
    | none => pure (s.available.filter Rule.isDefault)
    | some list => do
        let names ← s.known list .unknownSelected
        pure (s.available.filter fun r => names.contains "all" || names.contains r.name)
  match s.ignore with
  | none => return selected
  | some list => do
      let names ← s.known list .unknownIgnored
      return selected.filter fun r => !names.contains r.name

end Selection

end CatalogLint
