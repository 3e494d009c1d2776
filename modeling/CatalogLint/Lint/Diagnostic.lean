import CatalogLint.Format.Indicator
import CatalogLint.Lint.Style
import CatalogLint.Text.Json
import CatalogLint.Text.Split

/-!
# Diagnostics

A diagnostic is a problem in a file, with the lines that show it. Highlights are pieces of a
line, given by byte offsets; a piece that cuts a character, or that starts inside an earlier one,
is not highlighted. A diagnostic is displayed as text, with or without colours, or written as a
JSON record, where highlights are counted in characters.
-/
namespace CatalogLint

inductive Severity where
  | info | warning | error
  deriving DecidableEq, Repr

namespace Severity

def name : Severity → String
  | .info => "info"
  | .warning => "warning"
  | .error => "error"

/-- The name in a record. -/
def recordName : Severity → String
  | .info => "Info"
  | .warning => "Warning"
  | .error => "Error"

def style : Severity → Style
  | .info => .info
  | .warning => .warning
  | .error => .error

def text [Painting] (color : Bool) (s : Severity) : String :=
  s.style.paintString color s.name

end Severity

/-- A string of the file, which may have several lines of its own. Number zero stands for no
line of the file. -/
structure DiagnosticLine where
  number : Nat
  text : String
  highlights : List Span
  deriving DecidableEq, Repr

structure Diagnostic where
  path : String
  rule : String
  severity : Severity
  message : String
  lines : List DiagnosticLine
  deriving DecidableEq, Repr

namespace DiagnosticLine

/-- Paints the pieces of a text of which `rest` is left from the byte `place` on. -/
def highlight (paint : List Char → List Char) (place : Nat) (rest : List Char) :
    List Span → List Char
  | [] => rest
  | s :: ss =>
      if s.start < place || s.stop < s.start then highlight paint place rest ss
      else
        match Text.takeBytes (s.start - place) rest, Text.dropBytes (s.start - place) rest with
        | some before, some inside =>
            match Text.takeBytes (s.stop - s.start) inside,
                Text.dropBytes (s.stop - s.start) inside with
            | some piece, some after => before ++ paint piece ++ highlight paint s.stop after ss
            | _, _ => highlight paint place rest ss
        | _, _ => highlight paint place rest ss

def highlighted (paint : List Char → List Char) (l : DiagnosticLine) : List Char :=
  highlight paint 0 l.text.toList l.highlights

section Displaying
variable [Painting]

def margin (color : Bool) : List Char :=
  Painting.paint color .margin "        | ".toList

/-- The margin of a numbered line: the number takes seven places at least. -/
def numberedMargin (color : Bool) (n : Nat) : List Char :=
  let digits := (toString n).toList
  Painting.paint color .margin (List.replicate (7 - digits.length) ' ' ++ digits ++ " | ".toList)

/-- The lines as they are displayed, each behind its margin. -/
def display (color : Bool) (l : DiagnosticLine) : List Char :=
  let first := if l.number = 0 then margin color else numberedMargin color l.number
  if l.text.isEmpty then first
  else
    match Text.lines (l.highlighted (Painting.paint color .highlight)) with
    | [] => []
    | line :: more => first ++ line ++ more.flatMap fun m => '\n' :: margin color ++ m

end Displaying

/-- A highlight counted in characters, if both of its ends are boundaries. -/
def charRange? (cs : List Char) (s : Span) : Option (Nat × Nat) := do
  return (← Text.charsBefore? cs s.start, ← Text.charsBefore? cs s.stop)

def json (l : DiagnosticLine) : String :=
  let range (r : Nat × Nat) := Text.Json.array [toString r.1, toString r.2]
  let ranges := (l.highlights.filterMap (charRange? l.text.toList)).map range
  Text.Json.record
    [("line_number", toString l.number), ("message", Text.Json.quote l.text),
      ("highlights", Text.Json.array ranges)]

end DiagnosticLine

namespace Diagnostic
variable [Painting]

/-- The lines between two bars, or nothing. -/
def displayLines (color : Bool) (d : Diagnostic) : List Char :=
  if d.lines.isEmpty then ['\n']
  else
    let bar := Painting.paint color .margin "        |".toList
    let shown := [] :: bar :: d.lines.map (DiagnosticLine.display color) ++ [bar, []]
    ['\n'].intercalate shown

def display (color : Bool) (d : Diagnostic) : String :=
  let place := d.lines.head?.elim "" fun l => s!":{l.number}"
  let path := Style.path.paintString color d.path
  let head := s!"{path}{place}: [{d.severity.text color}:{d.rule}] {d.message}"
  head ++ String.ofList (d.displayLines color)

def json (d : Diagnostic) : String :=
  Text.Json.record
    [("path", Text.Json.quote d.path), ("rule", Text.Json.quote d.rule),
      ("severity", Text.Json.quote d.severity.recordName),
      ("message", Text.Json.quote d.message),
      ("lines", Text.Json.array (d.lines.map DiagnosticLine.json))]

end Diagnostic

end CatalogLint
