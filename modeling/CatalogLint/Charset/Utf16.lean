/-!
# Reading UTF-16

Pairs of bytes are code units, in either byte order; a code unit is a character, or one half of a
surrogate pair. As in UTF-8, `none` stands for what is not well-formed: a half without its other
half, or a byte without its other byte at the end.
-/
namespace CatalogLint.Charset.Utf16

inductive ByteOrder where
  | little | big
  deriving DecidableEq, Repr

/-- The code units, and whether a byte is left over. -/
def units (order : ByteOrder) : List UInt8 → List Nat × Bool
  | [] => ([], false)
  | [_] => ([], true)
  | a :: b :: bs =>
      let (us, odd) := units order bs
      let u :=
        match order with
        | .little => a.toNat + 256 * b.toNat
        | .big => 256 * a.toNat + b.toNat
      (u :: us, odd)

def isHigh (u : Nat) : Bool :=
  0xD800 ≤ u && u < 0xDC00

def isLow (u : Nat) : Bool :=
  0xDC00 ≤ u && u < 0xE000

/-- The characters of code units. A high half at the very end and a byte left over after it are
one fault together. -/
def ofUnits (odd : Bool) : List Nat → List (Option Char)
  | [] => if odd then [none] else []
  | [u] =>
      if isHigh u then [none]
      else (if isLow u then none else some (Char.ofNat u)) :: if odd then [none] else []
  | u :: v :: us =>
      if isHigh u then
        if isLow v then
          some (Char.ofNat (0x10000 + 0x400 * (u - 0xD800) + (v - 0xDC00))) :: ofUnits odd us
        else none :: ofUnits odd (v :: us)
      else (if isLow u then none else some (Char.ofNat u)) :: ofUnits odd (v :: us)

def decode (order : ByteOrder) (bs : List UInt8) : List (Option Char) :=
  let (us, odd) := units order bs
  ofUnits odd us

end CatalogLint.Charset.Utf16
