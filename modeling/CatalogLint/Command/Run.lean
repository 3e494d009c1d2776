import CatalogLint.ArgList.Text
import CatalogLint.Charset.Known
import CatalogLint.Command.Report
import CatalogLint.Files.Lookup
import CatalogLint.Format.Meaning
import CatalogLint.Lint.Terminal

/-!
# Running a command

What a command writes and the status it ends with are a function of its options and of what it
finds around it: the places that its paths lead to and the bytes of the standard input. Catalogs
are read in the known character sets, and colours are those of a terminal.
-/
namespace CatalogLint

structure Surroundings where
  place? : String → Option (Place Content)
  input : List UInt8
  color : Bool
  /-- The time that the summary of a check reports. -/
  elapsed : String

structure Outcome where
  status : Nat
  output : String
  errors : String
  deriving DecidableEq, Repr

namespace Outcome

/-- Lines of text, each with its end. -/
def unlines (lines : List String) : String :=
  String.join (lines.map (· ++ "\n"))

def refuse (color : Bool) (reason : String) : Outcome :=
  let word := Style.error.paintString color "Error"
  ⟨1, "", unlines [s!"{word}: {reason}"]⟩

end Outcome

namespace CheckOptions

def scope (o : CheckOptions) : CheckScope :=
  ⟨o.fuzzy, o.unchecked, o.obsolete⟩

def roots (o : CheckOptions) : List String :=
  if o.paths.isEmpty then ["."] else o.paths

def settingLines (o : CheckOptions) (rules : List Rule) : List String :=
  let yesNo (b : Bool) := if b then "yes" else "no"
  let names := if rules.isEmpty then "<none>" else ", ".intercalate (rules.map Rule.name)
  ["Configuration:", s!"  Rules enabled: {names}", s!"  Check fuzzy entries: {yesNo o.fuzzy}",
    s!"  Check noqa entries: {yesNo o.unchecked}",
    s!"  Check obsolete entries: {yesNo o.obsolete}", s!"  Output format: {o.format.name}"]

/-- The reports on the catalogs under the given paths. -/
def report (o : CheckOptions) (rules : List Rule) (place? : String → Option (Place Content)) :
    Report :=
  (catalogs place? o.roots).map fun (path, content) =>
    ⟨path, checkFile path rules o.scope content⟩

def run (o : CheckOptions) (s : Surroundings) : Outcome :=
  match o.selection.rules with
  | .error e => .refuse s.color e.message
  | .ok rules =>
      let report := o.report rules s.place?
      let settings := if o.showSettings && !o.quiet then o.settingLines rules else []
      { status := if report.faulty.isEmpty then 0 else 1
        output := Outcome.unlines (settings ++ report.lines o s.color s.elapsed)
        errors := "" }

end CheckOptions

/-- The rules of one kind under a heading. -/
def ruleList (color : Bool) (kind : String) (rules : List Rule) : List String :=
  if rules.isEmpty then [s!"No {kind} rules."]
  else s!"{rules.length} {kind} rules:" :: rules.map fun r => s!"  {r.text color}"

def runRules (color : Bool) : Outcome :=
  let lines :=
    ruleList color "default" (Rule.all.filter Rule.isDefault) ++
      ruleList color "other" (Rule.all.filter fun r => !r.isDefault) ++
      [s!"Total: {Rule.all.length} rules"]
  ⟨0, Outcome.unlines lines, ""⟩

namespace FormatString

/-- The directives of a format string and what they ask of the arguments. -/
def describe (f : FormatString) (spec : FormatSpec) : String :=
  let directives := f.spans.map fun p => String.ofList (p.text f.text)
  let unlikely := if !directives.isEmpty && spec.isUnlikely then " (unlikely intentional)" else ""
  let list := " ".intercalate directives
  s!"{spec.directives} directives [{list}], constraints: {spec.arguments.text}{unlikely}"

def line (color : Bool) (text : String) : String :=
  let f := FormatString.parse text
  match f.result with
  | .ok spec => s!"{text}: {f.describe spec}"
  | .error fault =>
      let word := Style.error.paintString color "INVALID"
      s!"{text}: {word} {fault.message}"

def isValid (text : String) : Bool :=
  (FormatString.parse text).result.isOk

end FormatString

/-- The lines of the standard input, if it is text. -/
def inputLines? (input : List UInt8) : Option (List String) :=
  let cs := Text.Utf8.decode input
  if Text.isDamaged cs then none else some ((Text.lines (Text.lossy cs)).map String.ofList)

def ParseOptions.run (o : ParseOptions) (s : Surroundings) : Outcome :=
  match if o.texts.isEmpty then inputLines? s.input else some o.texts with
  | none =>
      .refuse s.color "could not read standard input: stream did not contain valid UTF-8"
  | some texts =>
      { status := if texts.all FormatString.isValid then 0 else 1
        output := Outcome.unlines (texts.map (FormatString.line s.color))
        errors := "" }

def Command.run (s : Surroundings) : Command → Outcome
  | .check o => o.run s
  | .rules => runRules s.color
  | .parse o => o.run s

end CatalogLint
