import CatalogLint.Command.Line
import CatalogLint.Lint.Rule

/-!
# The commands and their options

`check` checks catalogs, `rules` lists the rules and `parse` shows what format strings ask of their
arguments. Every command takes `-v` and `-h`; the verbosity given behind the name of the command
replaces the one given in front of it.
-/
namespace CatalogLint

/-- What diagnostics are sorted by, before their paths and lines. -/
inductive SortKey where
  | line | message | rule
  deriving DecidableEq, Repr

inductive OutputFormat where
  | human | json
  deriving DecidableEq, Repr

def OutputFormat.name : OutputFormat → String
  | .human => "human"
  | .json => "json"

structure CheckOptions where
  paths : List String := []
  showSettings : Bool := false
  fuzzy : Bool := false
  unchecked : Bool := false
  obsolete : Bool := false
  select : Option String := none
  ignore : Option String := none
  severities : List Severity := []
  hideDiagnostics : Bool := false
  sortKey? : Option SortKey := none
  fileCounts : Bool := false
  ruleCounts : Bool := false
  format? : Option OutputFormat := none
  quiet : Bool := false
  deriving DecidableEq, Repr

structure ParseOptions where
  texts : List String := []
  translated : Bool := false
  deriving DecidableEq, Repr

inductive Command where
  | check (options : CheckOptions)
  | rules
  | parse (options : ParseOptions)
  deriving DecidableEq, Repr

namespace CheckOptions

def sortKey (o : CheckOptions) : SortKey :=
  o.sortKey?.getD .line

def format (o : CheckOptions) : OutputFormat :=
  o.format?.getD .human

def selection (o : CheckOptions) : Selection :=
  ⟨o.select, o.ignore, o.severities⟩

end CheckOptions

namespace CommandLine

/-- A flag that is given at most once. -/
def once {σ : Type} (given : σ → Bool) (set : σ → σ) : Effect σ :=
  .flag fun o => if given o then .error .repeatedOption else .ok (set o)

/-- A value that is given at most once and that `read` understands. -/
def onceValue {σ α : Type} (given : σ → Option α) (read : String → Option α) (set : α → σ → σ) :
    Effect σ :=
  .value fun v o =>
    if (given o).isSome then .error .repeatedOption
    else
      match read v with
      | none => .error .badValue
      | some a => .ok (set a o)

def severity? : String → Option Severity
  | "info" => some .info
  | "warning" => some .warning
  | "error" => some .error
  | _ => none

def sortKey? : String → Option SortKey
  | "line" => some .line
  | "message" => some .message
  | "rule" => some .rule
  | _ => none

def outputFormat? : String → Option OutputFormat
  | "human" => some .human
  | "json" => some .json
  | _ => none

/-- The options that every command has. -/
def common {σ : Type} : List (Switch σ) :=
  [⟨"verbose", some 'v', .verbose⟩, ⟨"help", some 'h', .refuse .helpWanted⟩]

def checkGrammar : Grammar CheckOptions where
  switches :=
    common ++
      [⟨"show-settings", none, once (·.showSettings) ({ · with showSettings := true })⟩,
        ⟨"fuzzy", none, once (·.fuzzy) ({ · with fuzzy := true })⟩,
        ⟨"noqa", none, once (·.unchecked) ({ · with unchecked := true })⟩,
        ⟨"obsolete", none, once (·.obsolete) ({ · with obsolete := true })⟩,
        ⟨"select", some 's', onceValue (·.select) some fun v o => { o with select := some v }⟩,
        ⟨"ignore", some 'i', onceValue (·.ignore) some fun v o => { o with ignore := some v }⟩,
        ⟨"severity", some 'e', .value fun v o =>
          match severity? v with
          | none => .error .badValue
          | some s => .ok { o with severities := o.severities ++ [s] }⟩,
        ⟨"no-errors", some 'n', once (·.hideDiagnostics) ({ · with hideDiagnostics := true })⟩,
        ⟨"sort", none, onceValue (·.sortKey?) sortKey? fun v o => { o with sortKey? := some v }⟩,
        ⟨"file-stats", some 'f', once (·.fileCounts) ({ · with fileCounts := true })⟩,
        ⟨"rule-stats", some 'r', once (·.ruleCounts) ({ · with ruleCounts := true })⟩,
        ⟨"output", some 'o',
          onceValue (·.format?) outputFormat? fun v o => { o with format? := some v }⟩,
        ⟨"quiet", some 'q', once (·.quiet) ({ · with quiet := true })⟩]
  operand := some fun path o =>
    if path.isEmpty then .error .badValue else .ok { o with paths := o.paths ++ [path] }

def rulesGrammar : Grammar Unit where
  switches := common
  operand := none

def parseGrammar : Grammar ParseOptions where
  switches :=
    common ++ [⟨"translated", some 't', once (·.translated) ({ · with translated := true })⟩]
  operand := some fun text o => .ok { o with texts := o.texts ++ [text] }

/-- The options in front of the name of a command. -/
def frontGrammar : Grammar Unit where
  switches := common ++ [⟨"version", some 'V', .refuse .versionWanted⟩]
  operand := none

end CommandLine

/-- What a command line asks for. -/
structure Invocation where
  verbosity : Nat
  command : Command
  deriving DecidableEq, Repr

namespace Invocation
open CommandLine

/-- The command that a grammar reads. -/
def run {σ : Type} (g : Grammar σ) (settings : σ) (command : σ → Command) (verbosity : Nat)
    (words : List String) : Except Refusal Invocation := do
  let s ← g.readAll (.start settings 0) words
  return ⟨if s.verbosity = 0 then verbosity else s.verbosity, command s.settings⟩

/-- Reads a line from the name of a command on. -/
def named (name : String) (verbosity : Nat) (words : List String) : Except Refusal Invocation :=
  match name with
  | "check" => run checkGrammar {} .check verbosity words
  | "rules" => run rulesGrammar () (fun _ => .rules) verbosity words
  | "parse" => run parseGrammar {} .parse verbosity words
  | "help" =>
      if words ∈ [[], ["check"], ["rules"], ["parse"], ["help"]] then .error .helpWanted
      else .error .unknownCommand
  | _ => .error .unknownCommand

/-- Reads the options in front of the name of a command, and then the rest. -/
def scan (s : State Unit) : List String → Except Refusal Invocation
  | [] => .error (if s.verbosity = 0 then .emptyLine else .missingCommand)
  | w :: ws =>
      match s.separated, Word.ofText w with
      | true, _ =>
          .error <|
            if w ∈ ["check", "rules", "parse", "help"] then .unknownOption else .unknownCommand
      | false, .operand name => named name s.verbosity ws
      | false, _ => do scan (← frontGrammar.read s w) ws

def ofWords (words : List String) : Except Refusal Invocation :=
  scan (.start () 0) words

end Invocation

end CatalogLint
