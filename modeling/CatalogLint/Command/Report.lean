import CatalogLint.Command.Invocation
import CatalogLint.Files.Path
import CatalogLint.Lint.Check

/-!
# The report on checked files

The report lists the diagnostics of all files in one order, then how many problems there are by
rule, by file and in all. Equal diagnostics keep the order in which they were found.
-/
namespace CatalogLint

structure FileReport where
  path : String
  diagnostics : List Diagnostic
  deriving DecidableEq, Repr

/-- Problems by severity. -/
structure Counts where
  info : Nat
  warnings : Nat
  errors : Nat
  deriving DecidableEq, Ord, Repr

namespace Counts

def ofDiagnostics (ds : List Diagnostic) : Counts :=
  let count (s : Severity) := ds.countP (·.severity = s)
  ⟨count .info, count .warning, count .error⟩

def total (c : Counts) : Nat :=
  c.info + c.warnings + c.errors

def text (c : Counts) : String :=
  s!"{c.total} problems ({c.errors} errors, {c.warnings} warnings, {c.info} info)"

end Counts

namespace FileReport

def counts (f : FileReport) : Counts :=
  .ofDiagnostics f.diagnostics

def compare (f g : FileReport) : Ordering :=
  (Path.compare f.path g.path).then (Ord.compare f.counts g.counts)

def line (f : FileReport) : String :=
  if f.counts.total = 0 then s!"{f.path}: all OK!" else s!"{f.path}: {f.counts.text}"

end FileReport

namespace Diagnostic

def comparePlaces (d e : Diagnostic) : Ordering :=
  let numbers (d : Diagnostic) := d.lines.map DiagnosticLine.number
  (Path.compare d.path e.path).then (Ord.compare (numbers d) (numbers e))

def firstText (d : Diagnostic) : String :=
  d.lines.head?.elim "" DiagnosticLine.text

def compareBy (key : SortKey) (d e : Diagnostic) : Ordering :=
  match key with
  | .line => comparePlaces d e
  | .message => (compare d.firstText e.firstText).then (comparePlaces d e)
  | .rule => (compare d.rule e.rule).then (comparePlaces d e)

end Diagnostic

/-- The reports on all files. -/
abbrev Report :=
  List FileReport

namespace Report

def diagnostics (r : Report) : List Diagnostic :=
  r.flatMap FileReport.diagnostics

def sorted (key : SortKey) (r : Report) : List Diagnostic :=
  r.diagnostics.mergeSort fun d e => (d.compareBy key e).isLE

/-- How often each rule was broken, the most broken first. -/
def byRule (r : Report) : List (String × Nat) :=
  let names := r.diagnostics.map Diagnostic.rule
  let counted := (names.eraseDups.mergeSort stringLe).map fun n => (n, names.count n)
  counted.mergeSort fun a b => b.2 ≤ a.2

def faulty (r : Report) : List FileReport :=
  r.filter fun f => f.counts.total ≠ 0

def summary (r : Report) (elapsed : String) : String :=
  if r.isEmpty then s!"No files checked [{elapsed}]"
  else if r.faulty.isEmpty then s!"{r.length} files checked: all OK! [{elapsed}]"
  else
    let counts := (Counts.ofDiagnostics r.diagnostics).text
    s!"{r.length} files checked: {counts} in {r.faulty.length} files [{elapsed}]"

/-- The diagnostics in the output format. -/
def diagnosticLines [Painting] (o : CheckOptions) (color : Bool) (r : Report) : List String :=
  let ds := r.sorted o.sortKey
  match o.format with
  | .human => ds.map (Diagnostic.display color)
  | .json => [Text.Json.array (ds.map Diagnostic.json)]

def ruleLines (r : Report) : List String :=
  "Problems by rule:" :: r.byRule.map fun (name, count) => s!"  {name}: {count}"

def fileLines (r : Report) : List String :=
  (r.mergeSort fun f g => (f.compare g).isLE).map FileReport.line

/-- All lines of the report. Numbers are for human readers only. -/
def lines [Painting] (o : CheckOptions) (color : Bool) (elapsed : String) (r : Report) :
    List String :=
  let onlyIf (wanted : Bool) (ls : List String) := if wanted then ls else []
  let human := o.format = .human
  onlyIf (!o.quiet) <|
    onlyIf (!o.hideDiagnostics) (r.diagnosticLines o color) ++
      onlyIf (human && o.ruleCounts) r.ruleLines ++ onlyIf (human && o.fileCounts) r.fileLines ++
      onlyIf human [r.summary elapsed]

end Report

end CatalogLint
