import CatalogLint.Text.Split

/-!
# Command lines

A command line is a list of words. Options have long names behind `--` and one letter behind `-`;
letters can stand together in a word. An option that takes a value finds it in the same word,
behind `=` or behind its letter, or in the next word. All other words are operands, and after the
word `--` every word is one.

An option without a value acts at once. A value waits until the next option or operand is met, or
the line ends, and so do operands: of two mistakes in a line the one that shows first counts.
-/
namespace CatalogLint

/-- Why a command line runs no command. -/
inductive Refusal where
  | unknownOption
  | unknownCommand
  /-- The value of an option or an operand is missing or not one of those allowed. -/
  | badValue
  | repeatedOption
  /-- An option that takes no value has one. -/
  | unwantedValue
  | emptyLine
  | missingCommand
  | helpWanted
  | versionWanted
  deriving DecidableEq, Repr

namespace CommandLine

inductive Word where
  | separator
  | long (name : String) (value : Option String)
  | letters (cs : List Char)
  | operand (text : String)
  deriving DecidableEq, Repr

def Word.ofText (text : String) : Word :=
  match text.toList with
  | ['-', '-'] => .separator
  | '-' :: '-' :: cs =>
      match Text.splitFirst '=' cs with
      | none => .long (String.ofList cs) none
      | some (name, value) => .long (String.ofList name) (some (String.ofList value))
  | '-' :: c :: cs => .letters (c :: cs)
  | _ => .operand text

/-- What an option does to the settings of type `σ`. -/
inductive Effect (σ : Type) where
  /-- It counts how verbose the run is. -/
  | verbose
  | refuse (why : Refusal)
  | flag (set : σ → Except Refusal σ)
  | value (set : String → σ → Except Refusal σ)

structure Switch (σ : Type) where
  name : String
  letter : Option Char
  effect : Effect σ

/-- The options of a command and what it does with operands, if it takes any. -/
structure Grammar (σ : Type) where
  switches : List (Switch σ)
  operand : Option (String → σ → Except Refusal σ)

/-- What has been read and does not act yet. -/
inductive Pending (σ : Type) where
  | nothing
  | option (set : String → σ → Except Refusal σ) (value : Option String)
  | operands (words : List String)

structure State (σ : Type) where
  settings : σ
  verbosity : Nat
  pending : Pending σ
  /-- Whether `--` was met. -/
  separated : Bool

namespace State
variable {σ : Type}

def start (settings : σ) (verbosity : Nat) : State σ :=
  ⟨settings, verbosity, .nothing, false⟩

/-- How often `-v` is counted at most. -/
def countLimit : Nat :=
  255

end State

namespace Grammar
variable {σ : Type}

def named? (g : Grammar σ) (name : String) : Option (Effect σ) :=
  (g.switches.find? (·.name = name)).map Switch.effect

def lettered? (g : Grammar σ) (c : Char) : Option (Effect σ) :=
  (g.switches.find? (·.letter = some c)).map Switch.effect

/-- Lets what is pending act. -/
def settle (g : Grammar σ) (s : State σ) : Except Refusal (State σ) :=
  match s.pending with
  | .nothing => .ok s
  | .option _ none => .error .badValue
  | .option set (some v) => do
      return { s with settings := ← set v s.settings, pending := .nothing }
  | .operands words =>
      match g.operand with
      | none => .error .unknownOption
      | some set => do
          return { s with settings := ← words.foldlM (fun o w => set w o) s.settings
                          pending := .nothing }

/-- An option without a value. -/
def act (g : Grammar σ) (s : State σ) : Effect σ → Except Refusal (State σ)
  | .verbose => do
      let s ← g.settle s
      return { s with verbosity := min (s.verbosity + 1) State.countLimit }
  | .refuse why => do
      let _ ← g.settle s
      .error why
  | .flag set => do
      let s ← g.settle s
      return { s with settings := ← set s.settings }
  | .value set => do
      let s ← g.settle s
      return { s with pending := .option set none }

/-- An option with a value in the same word. -/
def actWith (g : Grammar σ) (s : State σ) (v : String) : Effect σ → Except Refusal (State σ)
  | .value set => do
      let s ← g.settle s
      return { s with settings := ← set v s.settings }
  | _ => .error .unwantedValue

def readLetters (g : Grammar σ) (s : State σ) : List Char → Except Refusal (State σ)
  | [] => .ok s
  | c :: cs =>
      match g.lettered? c, cs with
      | none, _ => .error .unknownOption
      | some (.value set), '=' :: v => g.actWith s (String.ofList v) (.value set)
      | some (.value set), c :: v => g.actWith s (String.ofList (c :: v)) (.value set)
      | some e, cs => do g.readLetters (← g.act s e) cs

def readOperand (g : Grammar σ) (s : State σ) (word : String) : Except Refusal (State σ) :=
  match g.operand, s.pending with
  | none, _ => .error .unknownOption
  | some _, .operands words => .ok { s with pending := .operands (words ++ [word]) }
  | some _, _ => do return { ← g.settle s with pending := .operands [word] }

def read (g : Grammar σ) (s : State σ) (word : String) : Except Refusal (State σ) :=
  if s.separated then g.readOperand s word
  else
    match Word.ofText word with
    | .separator => .ok { s with separated := true }
    | .long name value =>
        match g.named? name, value with
        | none, _ => .error .unknownOption
        | some e, none => g.act s e
        | some e, some v => g.actWith s v e
    | .letters cs => g.readLetters s cs
    | .operand text =>
        match s.pending with
        | .option set none => .ok { s with pending := .option set (some text) }
        | _ => g.readOperand s text

/-- The settings and the verbosity after all words. -/
def readAll (g : Grammar σ) (s : State σ) (words : List String) : Except Refusal (State σ) := do
  g.settle (← words.foldlM g.read s)

end Grammar

end CommandLine

end CatalogLint
