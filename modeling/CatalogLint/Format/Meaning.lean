import CatalogLint.ArgList.Comparison
import CatalogLint.ArgList.Narrow
import CatalogLint.Format.Indicator
import CatalogLint.Format.Scan

/-!
# What a format string says of its arguments

The directives of a level are read from left to right. Each one requires the arguments that it
uses and gives them a shape; a directive without a number uses the argument after the last one
used so far. At the end of the level nothing may follow the last argument used, unless a
directive with the position `m:$` has used all that follow.
-/
namespace CatalogLint

/-- What has been read of a level. -/
structure Level where
  directives : Nat
  /-- The directives without a space flag. -/
  deliberate : Nat
  /-- The constraints on the arguments, none once they contradict one another. -/
  arguments : Option ArgList
  /-- The number of arguments used, none once all are. -/
  used : Option Nat
  deriving DecidableEq, Repr

/-- A format string as the sum of its directives. -/
structure FormatSpec where
  directives : Nat
  /-- The directives without a space flag, which are hardly there by accident. -/
  deliberate : Nat
  arguments : ArgList
  deriving DecidableEq, Repr

namespace FormatSpec

/-- A string whose directives all have a space flag, as in `100% sure`, is more likely not meant
to be a format string. -/
def isUnlikely (f : FormatSpec) : Bool :=
  f.deliberate = 0

/-- The shape of a value whose elements are formatted so: with one argument the elements of a
sequence, with two the keys and values of a table. -/
def elementShape (directive : Nat) (f : FormatSpec) : Except Fault Shape :=
  if !f.arguments.isFinite then .error (.compoundUnbounded directive)
  else
    match Segment.extent f.arguments.initial with
    | 1 => .ok (.compound .sequences f.arguments.initial f.arguments.repeated)
    | 2 => .ok (.compound .tables f.arguments.initial f.arguments.repeated)
    | n => .error (.compoundArity directive n)

end FormatSpec

namespace Level

def outset : Level :=
  ⟨0, 0, some .unconstrained, some 0⟩

def require (l : Level) (first last : Nat) (shape : Shape) : Level :=
  { l with arguments := l.arguments.bind (·.requireShape first last shape) }

/-- Uses the argument that a reference names, if there is one. -/
def refer (l : Level) (shape : Shape) : Reference → Option Level
  | .numbered m =>
      some { l.require (m - 1) (m - 1) shape with used := l.used.map (max · m) }
  | .next =>
      l.used.map fun n => { l.require n n shape with used := some (n + 1) }

def refer? (l : Level) (shape : Shape) : Option Reference → Option Level
  | none => some l
  | some r => l.refer shape r

/-- Uses the arguments that a specifier formats. -/
def convert (l : Level) (shape : Shape) : Position → Option Level
  | .next => l.refer shape .next
  | .single m => l.refer shape (.numbered m)
  | .range m n =>
      some { l.require (m - 1) (n - 1) shape with used := l.used.map (max · n) }
  | .toLast m =>
      let l := l.require (m - 1) (m - 1) shape
      some { l with arguments := l.arguments.bind (·.restrictFrom m shape), used := none }

/-- Adds a directive; none if it asks for an argument after the last one. -/
def add (l : Level) (head : Head) (shape : Shape) : Option Level := do
  let integer : Shape := .plain (.ofList [.integer])
  let l ← l.refer? integer head.width
  let l ← l.refer? integer head.precision
  let l ← l.refer? integer (if head.groupSize then some .next else none)
  let l ← l.refer? (.plain (.ofList [.char])) (if head.separator then some .next else none)
  let l ← l.convert shape head.position
  return { l with
    directives := l.directives + 1
    deliberate := if head.spaced then l.deliberate else l.deliberate + 1 }

/-- Forbids further arguments. -/
def finish (l : Level) : Except Fault FormatSpec :=
  let ended :=
    match l.used with
    | none => l.arguments
    | some n => l.arguments.bind (·.endAt n)
  match ended with
  | none => .error .conflictingUses
  | some list => .ok ⟨l.directives, l.deliberate, list⟩

end Level

/-- What reading yields: the marks left on the string, and the level or a fault. -/
structure Reading where
  marks : List Mark
  result : Except Fault FormatSpec

def Reading.after (marks : List Mark) (r : Reading) : Reading :=
  { r with marks := marks ++ r.marks }

def Reading.fail (marks : List Mark) (fault : Fault) : Reading :=
  ⟨marks, .error fault⟩

/-- Reads the rest of a level. -/
def Directives.read : Directives → Level → Reading
  | .done, l => ⟨[], l.finish⟩
  | .unclosed, _ => .fail [] .unmatchedOpen
  | .faulty start fault place, _ => .fail [.start start, .fault place] fault
  | .value start head kinds stop rest, l =>
      match l.add head (.plain kinds) with
      | none => .fail [.start start, .fault (stop - 1)] (.pastLastArgument (l.directives + 1))
      | some l => (rest.read l).after [.start start, .stop (stop - 1)]
  | .compound start head opening body stop rest, l =>
      let inner := (body.read .outset).after [.start start]
      match inner.result with
      | .error fault => .fail (inner.marks ++ [.fault opening]) fault
      | .ok f =>
          match f.elementShape (l.directives + 1) with
          | .error fault => .fail (inner.marks ++ [.fault (stop - 2)]) fault
          | .ok shape =>
              match l.add head shape with
              | none =>
                  .fail (inner.marks ++ [.fault (stop - 1)]) (.pastLastArgument (l.directives + 1))
              | some l => (rest.read l).after (inner.marks ++ [.stop (stop - 1)])
  | .broken start opening body, _ =>
      let inner := (body.read .outset).after [.start start]
      match inner.result with
      | .error fault => .fail (inner.marks ++ [.fault opening]) fault
      | .ok _ => .fail (inner.marks ++ [.fault opening]) .unmatchedOpen

/-- A format string that was read, or was refused. -/
structure FormatString where
  text : List Char
  indicators : List Indicator
  result : Except Fault FormatSpec

namespace FormatString

def ofText (cs : List Char) : FormatString :=
  let reading := (Directives.ofText cs).read .outset
  { text := cs
    indicators := Indicator.ofMarks (Text.byteLength cs) reading.marks
    result := reading.result.map fun f => { f with arguments := f.arguments.normalize } }

def parse (s : String) : FormatString :=
  ofText s.toList

/-- The outermost directives; of a refused string those that were read. -/
def spans (f : FormatString) : List Span :=
  Span.spans f.text f.indicators

/-- The character at which the string was refused. -/
def faultSpan? (f : FormatString) : Option Span :=
  Span.faultSpan? f.text f.indicators

/-- Arguments that are left over are an error for the formatter. -/
def strictTrailing : Bool := true

/-- The complaint about the arguments of a message and its translation. Both have to accept the
same arguments if it is asked for, and also if not, where none may be left over. -/
def check (labels : Labels) (message translation : FormatSpec) (equality : Bool := true) :
    Option String :=
  let agreement := if equality || strictTrailing then .equivalent else .subset
  message.arguments.compare agreement labels translation.arguments

end FormatString

end CatalogLint
