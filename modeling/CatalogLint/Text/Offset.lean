/-!
# Byte offsets in text

Places in a text are byte offsets of its UTF-8 form. An offset is a boundary when a whole number
of characters lies before it; only between two boundaries is there a piece of text.
-/
namespace CatalogLint.Text

/-- The length in bytes. -/
def byteLength : List Char → Nat
  | [] => 0
  | c :: cs => c.utf8Size + byteLength cs

/-- The text after the first `n` bytes, if a character ends there. -/
def dropBytes : Nat → List Char → Option (List Char)
  | 0, cs => some cs
  | _ + 1, [] => none
  | n + 1, c :: cs => if c.utf8Size ≤ n + 1 then dropBytes (n + 1 - c.utf8Size) cs else none

/-- The first `n` bytes of the text, if a character ends there. -/
def takeBytes : Nat → List Char → Option (List Char)
  | 0, _ => some []
  | _ + 1, [] => none
  | n + 1, c :: cs =>
      if c.utf8Size ≤ n + 1 then (takeBytes (n + 1 - c.utf8Size) cs).map (c :: ·) else none

def isBoundary (cs : List Char) (n : Nat) : Bool :=
  (dropBytes n cs).isSome

/-- The piece from `start` to `stop`, if both are boundaries in this order. -/
def piece? (cs : List Char) (start stop : Nat) : Option (List Char) :=
  if start ≤ stop then (dropBytes start cs).bind (takeBytes (stop - start)) else none

/-- The first boundary that is not before `n`; past the end, `n` itself. -/
def boundaryFrom : List Char → Nat → Nat
  | [], n => n
  | c :: cs, n =>
      if n = 0 then 0
      else if n ≤ c.utf8Size then c.utf8Size
      else c.utf8Size + boundaryFrom cs (n - c.utf8Size)

/-- The last boundary that is not after `n`. -/
def boundaryUpTo : List Char → Nat → Nat
  | [], _ => 0
  | c :: cs, n => if n < c.utf8Size then 0 else c.utf8Size + boundaryUpTo cs (n - c.utf8Size)

/-- How many characters lie before a boundary. -/
def charsBefore? (cs : List Char) (n : Nat) : Option Nat :=
  (takeBytes n cs).map List.length

end CatalogLint.Text
