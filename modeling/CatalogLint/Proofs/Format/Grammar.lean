import CatalogLint.Format.Scan
import CatalogLint.Proofs.Format.Reference

/-!
# The grammar of format strings

A `Format` is a format string of one level as its grammar derives it: text, directives, and
compound directives with the format of their elements. `Format.chars` writes it down, and
`Format.mentions` is what it says of its arguments, read off the derivation. Numbers may have
leading zeros, and flags may be repeated, as they are written; the numbers of a range are in their
order. The grammar does not say which strings are accepted: what it leaves to be asked is
`Format.Regular`.
-/
namespace CatalogLint

/-- One digit or more. -/
structure Numeral where
  digits : List Char
  areDigits : ∀ d ∈ digits, d.isDigit = true
  nonempty : digits ≠ []

/-- The number of an argument, which starts at one and is not too large. -/
structure ArgNumber extends Numeral where
  positive : 0 < decimal digits
  bounded : decimal digits ≤ largestNumber

def ArgNumber.value (n : ArgNumber) : ℕ :=
  decimal n.digits

/-- The position that a directive starts with: nothing, `m$`, `m:n$` or `m:$`. -/
inductive WrittenPosition where
  | absent
  | single (m : ArgNumber)
  | range (m n : ArgNumber) (ordered : m.value ≤ n.value)
  | toLast (m : ArgNumber)

/-- A width or a precision: digits, or `*`, or `*m$`. -/
inductive Amount where
  | digits (n : Numeral)
  | next
  | numbered (m : ArgNumber)

/-- A separator: the group size in digits or `*`, then `?` if the separating character is an
argument. -/
structure Separator where
  size : Option Numeral
  char : Bool

/-- What stands between `%` and the specifier. -/
structure Preamble where
  position : WrittenPosition
  flags : List Char
  areFlags : ∀ f ∈ flags, isFlag f = true
  width : Option Amount
  precision : Option Amount
  separator : Option Separator

/-- The letter of a directive, and the values that it formats. -/
structure Specifier where
  letter : Char
  kinds : Kinds
  known : specifierKinds letter = some kinds

inductive Format where
  | done
  /-- A character of the text; a percent sign is doubled. -/
  | text (c : Char) (rest : Format)
  | value (preamble : Preamble) (specifier : Specifier) (rest : Format)
  /-- The format of the elements, and what is written between them, if it is written down. -/
  | compound (preamble : Preamble) (body : Format) (delimiter : Option (List Char)) (rest : Format)

def WrittenPosition.text : WrittenPosition → List Char
  | .absent => []
  | .single m => m.digits ++ ['$']
  | .range m n _ => m.digits ++ ':' :: n.digits ++ ['$']
  | .toLast m => m.digits ++ [':', '$']

def Amount.text : Amount → List Char
  | .digits n => n.digits
  | .next => ['*']
  | .numbered m => '*' :: m.digits ++ ['$']

def Separator.text (s : Separator) : List Char :=
  ',' :: (match s.size with
    | some n => n.digits
    | none => ['*']) ++ if s.char then ['?'] else []

namespace Preamble

/-- A width, if there is one. -/
def widthText (p : Preamble) : List Char :=
  (p.width.map Amount.text).getD []

def precisionText (p : Preamble) : List Char :=
  (p.precision.map ('.' :: ·.text)).getD []

def separatorText (p : Preamble) : List Char :=
  (p.separator.map Separator.text).getD []

def text (p : Preamble) : List Char :=
  p.position.text ++ p.flags ++ p.widthText ++ p.precisionText ++ p.separatorText

end Preamble

/-- Text as it is written outside of directives. -/
def escape (c : Char) : List Char :=
  if c = '%' then ['%', '%'] else [c]

/-- The end of a compound directive. -/
def closing : Option (List Char) → List Char
  | none => ['%', ')']
  | some delimiter => '%' :: '|' :: delimiter.flatMap escape ++ ['%', ')']

def Format.chars : Format → List Char
  | .done => []
  | .text c rest => escape c ++ rest.chars
  | .value p s rest => '%' :: p.text ++ s.letter :: rest.chars
  | .compound p body delimiter rest =>
      '%' :: p.text ++ '(' :: body.chars ++ closing delimiter ++ rest.chars

def WrittenPosition.position : WrittenPosition → Position
  | .absent => .next
  | .single m => .single m.value
  | .range m n _ => .range m.value n.value
  | .toLast m => .toLast m.value

def Amount.reference? : Amount → Option Reference
  | .digits _ => none
  | .next => some .next
  | .numbered m => some (.numbered m.value)

/-- What a directive says before its specifier. -/
def Preamble.head (p : Preamble) : Head where
  position := p.position.position
  spaced := p.flags.contains ' '
  width := p.width.bind Amount.reference?
  precision := p.precision.bind Amount.reference?
  groupSize := (p.separator.map fun s => s.size.isNone).getD false
  separator := (p.separator.map fun s => s.char).getD false

namespace Format

/-- The references of a level, from left to right. Those inside a compound directive are numbered
on their own and say which elements its value may have. -/
def mentions : Format → List Mention
  | .done => []
  | .text _ rest => rest.mentions
  | .value p s rest => p.head.mentions (fun x => x.category ∈ s.kinds) ++ rest.mentions
  | .compound p body _ rest =>
      p.head.mentions (Value.ElementsSatisfy (Use.number 0 body.mentions)) ++ rest.mentions

/-- The references with their numbers. -/
def uses (f : Format) : List Use :=
  Use.number 0 f.mentions

/-- The arguments are as many as the string refers to, and as it says. -/
def Denotes (f : Format) (xs : List Value) : Prop :=
  Use.Satisfied f.uses xs

end Format

namespace Format

/-- In every compound directive the format of the elements refers to one argument or two, and to
no unlimited number of them. -/
def ElementsRegular : Format → Prop
  | .done => True
  | .text _ rest => rest.ElementsRegular
  | .value _ _ rest => rest.ElementsRegular
  | .compound _ body _ rest =>
      body.ElementsRegular ∧ Orderly body.mentions ∧ body.uses.all Use.isBounded = true ∧
        (Use.reach body.uses = 1 ∨ Use.reach body.uses = 2) ∧ rest.ElementsRegular

def Regular (f : Format) : Prop :=
  f.ElementsRegular ∧ Orderly f.mentions

end Format

end CatalogLint
