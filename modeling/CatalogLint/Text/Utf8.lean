/-!
# Reading UTF-8

Bytes are read as text one at a time. What is not well-formed shows as `none` in the result: one
for each longest start of a character that the next byte does not continue, and one for each byte
that cannot start a character. Nothing else is lost, and whoever needs text takes the replacement
character instead.
-/
namespace CatalogLint.Text

def replacement : Char := '\uFFFD'

/-- Text as it is shown, and whether all of it was well-formed. -/
def lossy (cs : List (Option Char)) : List Char :=
  cs.map (·.getD replacement)

def isDamaged (cs : List (Option Char)) : Bool :=
  cs.any Option.isNone

def encode (cs : List Char) : List UInt8 :=
  cs.flatMap String.utf8EncodeChar

namespace Utf8

/-- What the reader has seen of a character. -/
inductive State where
  | start
  /-- So many more bytes are due, the next of them between these bounds; the bits so far. -/
  | within (due : Nat) (low high : UInt8) (bits : Nat)
  deriving DecidableEq, Repr

/-- Reads the first byte of a character. -/
def begin (b : UInt8) : List (Option Char) × State :=
  if b < 0x80 then ([some (Char.ofNat b.toNat)], .start)
  else if b < 0xC2 then ([none], .start)
  else if b < 0xE0 then ([], .within 1 0x80 0xBF (b.toNat - 0xC0))
  else if b = 0xE0 then ([], .within 2 0xA0 0xBF 0)
  else if b = 0xED then ([], .within 2 0x80 0x9F 0xD)
  else if b < 0xF0 then ([], .within 2 0x80 0xBF (b.toNat - 0xE0))
  else if b = 0xF0 then ([], .within 3 0x90 0xBF 0)
  else if b = 0xF4 then ([], .within 3 0x80 0x8F 4)
  else if b < 0xF4 then ([], .within 3 0x80 0xBF (b.toNat - 0xF0))
  else ([none], .start)

def step : State → UInt8 → List (Option Char) × State
  | .start, b => begin b
  | .within due low high bits, b =>
      if low ≤ b ∧ b ≤ high then
        let bits := 64 * bits + (b.toNat - 0x80)
        if due ≤ 1 then ([some (Char.ofNat bits)], .start)
        else ([], .within (due - 1) 0x80 0xBF bits)
      else
        let (cs, s) := begin b
        (none :: cs, s)

def run : State → List UInt8 → List (Option Char)
  | .start, [] => []
  | .within .., [] => [none]
  | s, b :: bs =>
      let (cs, t) := step s b
      cs ++ run t bs

/-- The characters of a byte string. -/
def decode (bs : List UInt8) : List (Option Char) :=
  run .start bs

end Utf8

/-- Text out of bytes, whatever they are. -/
def ofBytes (bs : List UInt8) : List Char :=
  lossy (Utf8.decode bs)

end CatalogLint.Text
