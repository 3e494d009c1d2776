import CatalogLint.Text.Utf8

/-!
# Escape sequences

Strings in a catalog are written with the escape sequences of C. A numeric sequence stands for a
byte, not for a character: what it yields is read as UTF-8 together with the text around it. A
backslash that starts no known sequence stands for itself.
-/
namespace CatalogLint.Escape

/-- The byte of a sequence that is a backslash and one character. -/
def named : Char → Option UInt8
  | 'n' => some 10
  | 'r' => some 13
  | 't' => some 9
  | 'a' => some 7
  | 'b' => some 8
  | 'f' => some 12
  | 'v' => some 11
  | '"' => some 34
  | '\\' => some 92
  | '\'' => some 39
  | '?' => some 63
  | _ => none

def isOctal (c : Char) : Bool :=
  '0' ≤ c && c ≤ '7'

def isHex (c : Char) : Bool :=
  c.isDigit || ('a' ≤ c && c ≤ 'f') || ('A' ≤ c && c ≤ 'F')

def digitValue (c : Char) : Nat :=
  if c.isDigit then c.toNat - '0'.toNat
  else if 'a' ≤ c then c.toNat - 'a'.toNat + 10
  else c.toNat - 'A'.toNat + 10

/-- The number that digits write, as far as it fits a byte. -/
def byteOf (base : Nat) (digits : List Char) : UInt8 :=
  UInt8.ofNat (digits.foldl (fun n c => base * n + digitValue c) 0)

/-- The bytes of the sequence that a backslash starts, and what follows it: up to three octal
digits, or any number of hexadecimal digits after an `x`. -/
def sequence : List Char → List UInt8 × List Char
  | [] => ([92], [])
  | c :: cs =>
      match named c with
      | some b => ([b], cs)
      | none =>
          if isOctal c then
            let more := (cs.take 2).takeWhile isOctal
            ([byteOf 8 (c :: more)], cs.drop more.length)
          else if c = 'x' && (cs.head?.any isHex) then
            ([byteOf 16 (cs.takeWhile isHex)], cs.dropWhile isHex)
          else (92 :: String.utf8EncodeChar c, cs)

theorem length_sequence (cs : List Char) : (sequence cs).2.length ≤ cs.length := by
  match cs with
  | [] => simp [sequence]
  | c :: cs =>
      have hd : (cs.dropWhile isHex).length ≤ cs.length := by
        induction cs with
        | nil => simp
        | cons d ds ih =>
            rw [List.dropWhile_cons]
            split
            · simp only [List.length_cons]
              omega
            · exact Nat.le_refl _
      simp only [sequence]
      repeat' split
      all_goals simp only [List.length_cons, List.length_drop]
      all_goals omega

/-- The bytes that a string denotes. -/
def bytes : List Char → List UInt8
  | [] => []
  | c :: cs =>
      if c = '\\' then
        have := length_sequence cs
        (sequence cs).1 ++ bytes (sequence cs).2
      else String.utf8EncodeChar c ++ bytes cs
  termination_by cs => cs.length

/-- The text that a string denotes. -/
def unescape (s : String) : String :=
  String.ofList (Text.ofBytes (bytes s.toList))

end CatalogLint.Escape
