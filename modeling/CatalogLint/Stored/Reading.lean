import CatalogLint.Format.Meaning
import CatalogLint.Stored.Narrow
import CatalogLint.Stored.Scan

/-!
# Reading format strings into stored lists

The reading of `CatalogLint.Format.Meaning` as it is carried out in one pass over the bytes of a
string: a directive is scanned, its constraints are added to the stored list of its level, and the
indicators of the bytes are marked on the way. An indicator that does not exist is not marked.
-/
namespace CatalogLint

/-- What has been read of a level. -/
structure StoredLevel where
  directives : Nat
  /-- The directives without a space flag. -/
  deliberate : Nat
  /-- The constraints on the arguments, none once they contradict one another. -/
  arguments : Option StoredList
  /-- The number of arguments used, none once all are. -/
  used : Option Nat
  deriving DecidableEq, Repr

namespace StoredLevel
variable (w : Word)

def outset : StoredLevel :=
  ⟨0, 0, some .unconstrained, some 0⟩

def require (l : StoredLevel) (first last : Nat) (shape : StoredShape) : Checked StoredLevel :=
  match l.arguments with
  | none => return l
  | some list => do
      let arguments ← list.requireShape w first last shape
      return { l with arguments }

def restrictFrom (l : StoredLevel) (n : Nat) (shape : StoredShape) : Checked StoredLevel :=
  match l.arguments with
  | none => return l
  | some list => do
      let arguments ← list.restrictFrom w n shape
      return { l with arguments }

/-- Uses the argument that a reference names, if there is one. -/
def refer (l : StoredLevel) (shape : StoredShape) : Reference → Checked (Option StoredLevel)
  | .numbered m => do
      let n ← Checked.sub m 1
      let l ← l.require w n n shape
      return some { l with used := l.used.map (max · m) }
  | .next =>
      match l.used with
      | none => return none
      | some n => do
          let l ← l.require w n n shape
          let next ← w.add n 1
          return some { l with used := some next }

/-- Uses the arguments that a specifier formats. -/
def convert (l : StoredLevel) (shape : StoredShape) : Position → Checked (Option StoredLevel)
  | .next => l.refer w shape .next
  | .single m => l.refer w shape (.numbered m)
  | .range m n => do
      let first ← Checked.sub m 1
      let last ← Checked.sub n 1
      let l ← l.require w first last shape
      return some { l with used := l.used.map (max · n) }
  | .toLast m => do
      let first ← Checked.sub m 1
      let l ← l.require w first first shape
      let l ← l.restrictFrom w m shape
      return some { l with used := none }

/-- Uses the argument of a reference, if there is a reference. -/
def refer? (l : StoredLevel) (shape : StoredShape) :
    Option Reference → Checked (Option StoredLevel)
  | none => return some l
  | some r => l.refer w shape r

/-- Uses the arguments of some references, up to one that asks for an argument after the last
one. -/
def referAll : List (Option Reference × StoredShape) → StoredLevel → Checked (Option StoredLevel)
  | [], l => return some l
  | (r, shape) :: rest, l => do
      match ← l.refer? w shape r with
      | none => return none
      | some l => referAll rest l

/-- What a directive mentions besides the arguments that it formats. -/
def auxiliary (head : Head) : List (Option Reference × StoredShape) :=
  let integer : StoredShape := ⟨.ofList [.integer], false, none⟩
  let char : StoredShape := ⟨.ofList [.char], false, none⟩
  [(head.width, integer), (head.precision, integer),
    (if head.groupSize then some .next else none, integer),
    (if head.separator then some .next else none, char)]

/-- Adds the constraints of a directive that has been counted; none if it asks for an argument
after the last one. -/
def add (l : StoredLevel) (head : Head) (shape : StoredShape) : Checked (Option StoredLevel) := do
  match ← referAll w (auxiliary head) l with
  | none => return none
  | some l => do
      match ← l.convert w shape head.position with
      | none => return none
      | some l =>
          if head.spaced then return some l
          else do
            let deliberate ← w.add l.deliberate 1
            return some { l with deliberate }

/-- Forbids further arguments. -/
def finish (l : StoredLevel) : Checked (Except Fault StoredLevel) :=
  match l.arguments with
  | none => return .error .conflictingUses
  | some list => do
      let arguments ← match l.used with
        | none => pure (some list)
        | some n => list.endAt w n
      if arguments.isNone then return .error .conflictingUses
      else return .ok { l with arguments }

end StoredLevel

/-- The place that has been reached, and the indicators of all bytes. -/
structure Scanner where
  pos : Nat
  indicators : List Indicator
  deriving DecidableEq, Repr

def Indicator.removeStart (i : Indicator) : Indicator :=
  { i with starts := false }

namespace Scanner
variable {α : Type}

def mark (s : Scanner) (m : Mark) : Scanner :=
  { s with indicators := s.indicators.modify m.place (·.add m) }

/-- Takes back that a directive starts at a place. -/
def unmark (s : Scanner) (place : Nat) : Scanner :=
  { s with indicators := s.indicators.modify place Indicator.removeStart }

def moveTo (s : Scanner) (pos : Nat) : Scanner :=
  { s with pos }

def fail (s : Scanner) (f : Failure) : Except Fault α × Scanner :=
  (.error f.fault, s.mark (.fault f.place))

end Scanner

namespace ByteScan

/-- Reads the rest of a level, inside a compound directive or not. -/
abbrev LevelReader : Type :=
  Bool → StoredLevel → Scanner → Checked (Except Fault StoredLevel × Scanner)

/-- The meaning of a specifier. -/
inductive Conversion where
  | value (shape : StoredShape)
  /-- The end of the compound directive around it. -/
  | endCompound
  deriving Repr

variable (w : Word) (text : List Char)

/-- The shape of a value whose elements are formatted by the body of a compound directive, which
has been read up to the place of the scanner. -/
def elementShape (directive : Nat) (body : StoredLevel) (s : Scanner) :
    Checked (Except Failure StoredShape) :=
  match body.arguments with
  | none => do
      let last ← Checked.sub s.pos 1
      return .error ⟨.conflictingUses, last⟩
  | some list =>
      if !list.isFinite then do
        let last ← Checked.sub s.pos 1
        return .error ⟨.compoundUnbounded directive, last⟩
      else
        match list.initial.length with
        | 1 => return .ok ⟨.sequences, true, some list⟩
        | 2 => return .ok ⟨.tables, true, some list⟩
        | n => do
            let last ← Checked.sub s.pos 1
            return .error ⟨.compoundArity directive n, last⟩

/-- Reads a compound specifier from its parenthesis on. -/
def compound (readLevel : LevelReader) (directive : Nat) (s : Scanner) :
    Checked (Except Fault Conversion × Scanner) := do
  let body ← w.add s.pos 1
  match ← readLevel true .outset (s.moveTo body) with
  | (.error fault, s) => return s.fail ⟨fault, placeOrLast (Text.bytes text) body⟩
  | (.ok level, s) => do
      match ← elementShape directive level s with
      | .error f => return s.fail f
      | .ok shape => return (.ok (.value shape), s)

/-- Reads a specifier; the scanner is left at the last byte of the directive. -/
def conversion (readLevel : LevelReader) (directive : Nat) (inCompound : Bool) (s : Scanner) :
    Checked (Except Fault Conversion × Scanner) :=
  let bytes := Text.bytes text
  match bytes[s.pos]? with
  | none => return s.fail ⟨.unfinishedDirective, placeOrLast bytes s.pos⟩
  | some b =>
      match specifierKinds b with
      | some kinds => return (.ok (.value ⟨kinds, false, none⟩), s)
      | none =>
          if b = '(' then compound w text readLevel directive s
          else if b = '|' then
            if inCompound then do
              let next ← w.add s.pos 1
              match ← delimiter w bytes directive (bytes.drop next) next with
              | .error f => return s.fail f
              | .ok pos => return (.ok .endCompound, s.moveTo pos)
            else return s.fail ⟨.barOutsideCompound, s.pos⟩
          else if b = ')' then
            if inCompound then return (.ok .endCompound, s)
            else return s.fail ⟨.unmatchedClose, s.pos⟩
          else do
            let specifier ← characterAt text s.pos
            return s.fail ⟨.unknownSpecifier directive specifier, s.pos⟩

/-- Adds a directive, which has been counted, and reads the level on after it. -/
def addDirective (readLevel : LevelReader) (inCompound : Bool) (l : StoredLevel) (head : Head)
    (shape : StoredShape) (s : Scanner) : Checked (Except Fault StoredLevel × Scanner) := do
  match ← l.add w head shape with
  | none => return s.fail ⟨.pastLastArgument l.directives, s.pos⟩
  | some l => do
      let next ← w.add s.pos 1
      readLevel inCompound l ((s.mark (.stop s.pos)).moveTo next)

/-- Ends a level at the end of a compound directive, which is not a directive of its own. -/
def endCompound (l : StoredLevel) (start : Nat) (s : Scanner) :
    Checked (Except Fault StoredLevel × Scanner) := do
  let directives ← Checked.sub l.directives 1
  let result ← StoredLevel.finish w { l with directives }
  return (result, s.unmark start)

/-- Reads a level on from the specifier of a directive, which has been counted. -/
def readDirective (readLevel : LevelReader) (inCompound : Bool) (l : StoredLevel) (start : Nat)
    (head : Head) (s : Scanner) : Checked (Except Fault StoredLevel × Scanner) := do
  match ← conversion w text readLevel l.directives inCompound s with
  | (.error fault, s) => return (.error fault, s)
  | (.ok .endCompound, s) => endCompound w l start s
  | (.ok (.value shape), s) => addDirective w readLevel inCompound l head shape s

/-- Reads the rest of a level, at most so many directives of it. Inside a compound directive the
scanner is left at the `)` that closes it. -/
def readLevel : Nat → LevelReader
  | 0, _, _, _ => .error .endless
  | steps + 1, inCompound, l, s => do
      let bytes := Text.bytes text
      match ← nextDirective? w (bytes.drop s.pos) s.pos with
      | none =>
          if inCompound then return (.error .unmatchedOpen, s)
          else do
            let result ← l.finish w
            return (result, s)
      | some (start, next) =>
          let s := s.mark (.start start)
          -- the string ends right after the percent sign
          if bytes[next]? = none then return s.fail ⟨.unfinishedDirective, start⟩
          else do
            let directives ← w.add l.directives 1
            match ← head w bytes directives next with
            | .error f => return s.fail f
            | .ok (head, pos) =>
                readDirective w text (readLevel steps) inCompound { l with directives } start head
                  (s.moveTo pos)

end ByteScan

/-- A format string as the sum of its directives. -/
structure StoredSpec where
  directives : Nat
  deliberate : Nat
  arguments : StoredList
  deriving DecidableEq, Repr

def FormatSpec.stored (f : FormatSpec) : StoredSpec :=
  ⟨f.directives, f.deliberate, f.arguments.stored⟩

/-- Reads a text and marks the indicators of its bytes. -/
def StoredSpec.parse (w : Word) (text : List Char) (indicators : List Indicator) :
    Checked (Except Fault StoredSpec × List Indicator) := do
  let bytes := Text.bytes text
  Checked.demand (indicators.length = bytes.length) .wrongLength
  match ← ByteScan.readLevel w text (bytes.length + 1) false .outset ⟨0, indicators⟩ with
  | (.error fault, s) => return (.error fault, s.indicators)
  | (.ok level, s) =>
      match level.arguments with
      | none => return (.error .conflictingUses, s.indicators)
      | some list => do
          let list ← list.normalize w
          return (.ok ⟨level.directives, level.deliberate, list⟩, s.indicators)

end CatalogLint
