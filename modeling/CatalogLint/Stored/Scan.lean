import CatalogLint.Format.Scan
import CatalogLint.Stored.Arithmetic
import CatalogLint.Text.Utf8

/-!
# Scanning format strings byte by byte

The scan of `CatalogLint.Format.Scan` as it is carried out on the bytes of a string. Places are
counted up one byte at a time, and a character of several bytes is skipped like as many others;
only where a specifier is not known the string is cut to read a whole character.
-/
namespace CatalogLint

/-- The bytes of a text, each as the character of its number, so that those of ASCII look like
what they are. -/
def Text.bytes (cs : List Char) : List Char :=
  (Text.encode cs).map Char.ofUInt8

namespace ByteScan
variable (w : Word) (bytes : List Char)

def isDigitAt (pos : Nat) : Bool :=
  (bytes[pos]?).any Char.isDigit

/-- The place, or that of the last byte at the end of the string. -/
def placeOrLast (pos : Nat) : Nat :=
  if bytes.length ≤ pos then bytes.length - 1 else pos

/-- The character that starts at a byte. -/
def characterAt (text : List Char) (pos : Nat) : Checked Char :=
  match Text.dropBytes pos text with
  | some cs => return cs.head?.getD (Char.ofNat 0)
  | none => .error .cutCharacter

/-- Skips digits, of the bytes that are ahead of a place. -/
def skipDigits : List Char → Nat → Checked Nat
  | [], pos => return pos
  | b :: ahead, pos =>
      if b.isDigit then do
        let pos ← w.add pos 1
        skipDigits ahead pos
      else return pos

/-- Reads a decimal number on, whose value so far is none if it is too large. -/
def number : List Char → Option Nat → Nat → Checked (Option Nat × Nat)
  | [], value, pos => return (value, pos)
  | b :: ahead, value, pos =>
      if b.isDigit then do
        let digit ← Checked.sub b.toNat '0'.toNat
        let value := value.bind fun n => do
          let n ← (w.mul n 10).toOption
          (w.add n digit).toOption
        let pos ← w.add pos 1
        number ahead value pos
      else return (value, pos)

/-- Checks an explicit argument number, if it is not too large to be read. -/
def checkNumber (use : NumberUse) (directive place : Nat) : Option Nat → Except Failure Nat
  | none => .error ⟨.numberTooLarge directive, place⟩
  | some m => CatalogLint.checkNumber use directive place m

/-- The two numbers of a range, of which the last is checked first. -/
def checkRange (directive place : Nat) (first last : Option Nat) : Except Failure (Nat × Nat) := do
  let n ← checkNumber .conversion directive place last
  let m ← checkNumber .conversion directive place first
  if m > n then .error ⟨.rangeReversed directive, place⟩ else .ok (m, n)

/-- Reads a position on from the last number of a range. -/
def range (directive pos : Nat) (first : Option Nat) (next : Nat) :
    Checked (Except Failure (Position × Nat)) := do
  let (last, stop) ← number w (bytes.drop next) (some 0) next
  if bytes[stop]? = some '$' then
    match checkRange directive stop first last with
    | .error f => return .error f
    | .ok (m, n) => do
        let next ← w.add stop 1
        return .ok (.range m n, next)
  else return .ok (.next, pos)

def position (directive pos : Nat) : Checked (Except Failure (Position × Nat)) :=
  if !isDigitAt bytes pos then return .ok (.next, pos)
  else do
    let (first, stop) ← number w (bytes.drop pos) (some 0) pos
    if bytes[stop]? = some '$' then
      match checkNumber .conversion directive stop first with
      | .error f => return .error f
      | .ok m => do
          let next ← w.add stop 1
          return .ok (.single m, next)
    else if bytes[stop]? = some ':' then do
      let next ← w.add stop 1
      if isDigitAt bytes next then range w bytes directive pos first next
      else if bytes[next]? = some '$' then
        match checkNumber .conversion directive next first with
        | .error f => return .error f
        | .ok m => do
            let next ← w.add stop 2
            return .ok (.toLast m, next)
      else return .ok (.next, pos)
    else return .ok (.next, pos)

/-- Skips flags, and notes whether there is a space among them. -/
def flags : List Char → Bool → Nat → Checked (Bool × Nat)
  | [], spaced, pos => return (spaced, pos)
  | b :: ahead, spaced, pos =>
      if isFlag b then do
        let pos ← w.add pos 1
        flags ahead (spaced || b = ' ') pos
      else return (spaced, pos)

def width (use : NumberUse) (directive pos : Nat) :
    Checked (Except Failure (Option Reference × Nat)) :=
  if isDigitAt bytes pos then do
    let pos ← skipDigits w (bytes.drop pos) pos
    return .ok (none, pos)
  else if bytes[pos]? = some '*' then do
    let pos ← w.add pos 1
    if isDigitAt bytes pos then do
      let (value, stop) ← number w (bytes.drop pos) (some 0) pos
      if bytes[stop]? = some '$' then
        match checkNumber use directive stop value with
        | .error f => return .error f
        | .ok m => do
            let next ← w.add stop 1
            return .ok (some (.numbered m), next)
      else return .ok (some .next, pos)
    else return .ok (some .next, pos)
  else return .ok (none, pos)

def precision (directive pos : Nat) : Checked (Except Failure (Option Reference × Nat)) :=
  if bytes[pos]? = some '.' then do
    let pos ← w.add pos 1
    width w bytes .precision directive pos
  else return .ok (none, pos)

/-- Is the group size an argument? -/
def groupSize (pos : Nat) : Checked (Bool × Nat) :=
  if isDigitAt bytes pos then do
    let pos ← skipDigits w (bytes.drop pos) pos
    return (false, pos)
  else if bytes[pos]? = some '*' then do
    let pos ← w.add pos 1
    return (true, pos)
  else return (false, pos)

/-- Are the group size and the separating character arguments? -/
def separator (pos : Nat) : Checked ((Bool × Bool) × Nat) :=
  if bytes[pos]? = some ',' then do
    let pos ← w.add pos 1
    let (size, pos) ← groupSize w bytes pos
    if bytes[pos]? = some '?' then do
      let pos ← w.add pos 1
      return ((size, true), pos)
    else return ((size, false), pos)
  else return ((false, false), pos)

/-- Everything between `%` and the specifier. -/
def head (directive pos : Nat) : Checked (Except Failure (Head × Nat)) := do
  match ← position w bytes directive pos with
  | .error f => return .error f
  | .ok (position, pos) => do
      let (spaced, pos) ← flags w (bytes.drop pos) false pos
      match ← width w bytes .width directive pos with
      | .error f => return .error f
      | .ok (width, pos) => do
          match ← precision w bytes directive pos with
          | .error f => return .error f
          | .ok (precision, pos) => do
              let ((size, separator), pos) ← separator w bytes pos
              return .ok (⟨position, spaced, width, precision, size, separator⟩, pos)

/-- The next directive: the place of its `%`, and the place after that. -/
def nextDirective? : List Char → Nat → Checked (Option (Nat × Nat))
  | [], _ => return none
  | '%' :: '%' :: ahead, pos => do
      let pos ← w.add pos 1
      let pos ← w.add pos 1
      nextDirective? ahead pos
  | '%' :: _, pos => do
      let next ← w.add pos 1
      let start ← Checked.sub next 1
      return some (start, next)
  | _ :: ahead, pos => do
      let pos ← w.add pos 1
      nextDirective? ahead pos

/-- Skips the delimiter of a compound directive, up to the place of the `)` that closes it. -/
def delimiter (directive : Nat) : List Char → Nat → Checked (Except Failure Nat)
  | [], pos => return .error ⟨.unfinishedDelimiter, placeOrLast bytes pos⟩
  | ['%'], pos => do
      let pos ← w.add pos 1
      return .error ⟨.unfinishedDelimiter, placeOrLast bytes pos⟩
  | '%' :: '%' :: ahead, pos => do
      let pos ← w.add pos 1
      let pos ← w.add pos 1
      delimiter directive ahead pos
  | '%' :: ')' :: _, pos => do
      let pos ← w.add pos 1
      return .ok pos
  | '%' :: _ :: _, pos => do
      let pos ← w.add pos 1
      return .error ⟨.directiveInDelimiter directive, pos⟩
  | _ :: ahead, pos => do
      let pos ← w.add pos 1
      delimiter directive ahead pos

end ByteScan

end CatalogLint
