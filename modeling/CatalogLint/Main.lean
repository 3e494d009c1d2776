import CatalogLint.Command.Run

/-!
# The program

The program reads what a command needs, lets the command run, and writes what it answers. Only what
can be a catalog is read from folders.
-/
namespace CatalogLint.Program

def readError : IO.Error → ReadError
  | .noFileOrDirectory .. => .notFound
  | .permissionDenied _ code text => .other s!"{text} (os error {code})"
  | e => .other (toString e)

def readContent (path : String) : IO Content := do
  match ← (IO.FS.readBinFile path).toBaseIO with
  | .ok bytes => return .ok bytes.toList
  | .error e => return .error (readError e)

/-- Reads the place that a path leads to. -/
partial def readPlace (path : String) : IO (Option (Place Content)) := do
  let here ← IO.currentDir
  match ← (here / path).symlinkMetadata.toBaseIO with
  | .error _ => return none
  | .ok data =>
      match data.type with
      | .file => return some (.file (← readContent path))
      | .dir =>
          let names ←
            match ← (here / path).readDir.toBaseIO with
            | .ok entries => pure (entries.toList.map IO.FS.DirEntry.fileName)
            | .error _ => pure []
          let mut inside : Folder Content := .empty
          for name in names.filter fun n => !Path.isHidden n do
            match ← readPlace (Path.join path name) with
            | some (.file c) => if Path.isCatalogName name then inside := .file name c inside
            | some (.folder f) => inside := .folder name f inside
            | none => pure ()
          return some (.folder inside)
      | _ => return none

/-- What a command finds around it. The standard input is only read for those that want it. -/
def surroundings (color : Bool) : Command → IO Surroundings
  | .check o => do
      let start ← IO.monoMsNow
      let places ← o.roots.mapM fun path => return (path, ← readPlace path)
      let stop ← IO.monoMsNow
      return ⟨fun path => (places.lookup path).join, [], color, s!"{stop - start}ms"⟩
  | .rules => return ⟨fun _ => none, [], color, ""⟩
  | .parse o => do
      let input ← if o.texts.isEmpty then (← IO.getStdin).readBinToEnd else pure .empty
      return ⟨fun _ => none, input.toList, color, ""⟩

/-- Colours go to terminals, unless the environment has them forced on or off. -/
def wantsColor : IO Bool := do
  let isSet (name : String) : IO (Option Bool) := return (← IO.getEnv name).map (· ≠ "0")
  if (← isSet "CLICOLOR_FORCE") = some true then return true
  else if (← isSet "NO_COLOR").isSome then return false
  else return ((← isSet "CLICOLOR").getD true) && (← (← IO.getStdout).isTty)

def usage : String :=
  Outcome.unlines
    ["Check D format strings in PO files.", "",
      "Usage: catalog-lint [OPTIONS] <COMMAND>", "",
      "Commands:",
      "  check  Check files or directories [default: .]",
      "  rules  Display rules used to check files",
      "  parse  Display the constraints of format strings", "",
      "Options:",
      "  -v, --verbose  Increase verbosity",
      "  -h, --help     Print help",
      "  -V, --version  Print version"]

def complaint : Refusal → String
  | .unknownOption => "unexpected argument"
  | .unknownCommand => "unrecognized subcommand"
  | .badValue => "missing or invalid value"
  | .repeatedOption => "an option is given more than once"
  | .unwantedValue => "unexpected value"
  | .missingCommand => "a subcommand is required"
  | .emptyLine | .helpWanted | .versionWanted => ""

/-- The answer to a command line that runs no command. -/
def refuse : Refusal → Outcome
  | .helpWanted => ⟨0, usage, ""⟩
  | .versionWanted => ⟨0, Outcome.unlines ["catalog-lint 0.0.10"], ""⟩
  | .emptyLine => ⟨2, "", usage⟩
  | r => ⟨2, "", Outcome.unlines [s!"error: {complaint r}"]⟩

def answer (words : List String) : IO Outcome := do
  match Invocation.ofWords words with
  | .error r => return refuse r
  | .ok i => return i.command.run (← surroundings (← wantsColor) i.command)

end CatalogLint.Program

def main (words : List String) : IO UInt32 := do
  let answer ← CatalogLint.Program.answer words
  (← IO.getStdout).putStr answer.output
  (← IO.getStderr).putStr answer.errors
  return answer.status.toUInt32
