/-!
# Blanks, lines and separators

Blanks are the characters with the Unicode property White_Space. Lines end with a line feed, and
text lines also lose a carriage return before it; what follows the last line feed is a line only
if it is not empty.
-/
namespace CatalogLint.Text

def isBlank (c : Char) : Bool :=
  let n := c.toNat
  (9 ≤ n && n ≤ 13) || n = 0x20 || n = 0x85 || n = 0xA0 || n = 0x1680 ||
    (0x2000 ≤ n && n ≤ 0x200A) || n = 0x2028 || n = 0x2029 || n = 0x202F || n = 0x205F ||
    n = 0x3000

def trim (cs : List Char) : List Char :=
  ((cs.dropWhile isBlank).reverse.dropWhile isBlank).reverse

/-- The pieces between the separators, one more than there are separators. -/
def splitOn {α : Type} [DecidableEq α] (sep : α) : List α → List (List α)
  | [] => [[]]
  | a :: as =>
      if a = sep then [] :: splitOn sep as
      else
        match splitOn sep as with
        | [] => [[a]]
        | p :: ps => (a :: p) :: ps

/-- What comes before the first separator and what comes after it, if there is one. -/
def splitFirst {α : Type} [DecidableEq α] (sep : α) : List α → Option (List α × List α)
  | [] => none
  | a :: as => if a = sep then some ([], as) else (splitFirst sep as).map fun (p, q) => (a :: p, q)

def byteLines : List UInt8 → List (List UInt8)
  | [] => []
  | b :: bs =>
      if b = 10 then [] :: byteLines bs
      else
        match byteLines bs with
        | [] => [[b]]
        | l :: ls => (b :: l) :: ls

def lines : List Char → List (List Char)
  | [] => []
  | '\n' :: cs => [] :: lines cs
  | '\r' :: '\n' :: cs => [] :: lines cs
  | c :: cs =>
      match lines cs with
      | [] => [[c]]
      | l :: ls => (c :: l) :: ls

/-- What follows the given start, if the list has it. -/
def dropStart? {α : Type} [DecidableEq α] : List α → List α → Option (List α)
  | [], as => some as
  | _ :: _, [] => none
  | s :: ss, a :: as => if s = a then dropStart? ss as else none

/-- What comes before the given end, if the list has it. -/
def dropEnd? {α : Type} [DecidableEq α] (tail as : List α) : Option (List α) :=
  (dropStart? tail.reverse as.reverse).map List.reverse

/-- What follows the first occurrence. -/
def after? {α : Type} [DecidableEq α] (needle : List α) : List α → Option (List α)
  | [] => dropStart? needle []
  | a :: as =>
      match dropStart? needle (a :: as) with
      | some rest => some rest
      | none => after? needle as

end CatalogLint.Text
