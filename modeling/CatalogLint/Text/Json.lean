/-!
# Strings in JSON

A string is written between quotes. Quotes, backslashes and control characters are escaped, by a
letter where JSON has one; all other characters are written as they are.
-/
namespace CatalogLint.Text.Json

def hexDigit (n : Nat) : Char :=
  if n < 10 then Char.ofNat (48 + n) else Char.ofNat (87 + n)

def escape (c : Char) : List Char :=
  if c = '"' then ['\\', '"']
  else if c = '\\' then ['\\', '\\']
  else if c.toNat = 8 then ['\\', 'b']
  else if c.toNat = 9 then ['\\', 't']
  else if c.toNat = 10 then ['\\', 'n']
  else if c.toNat = 12 then ['\\', 'f']
  else if c.toNat = 13 then ['\\', 'r']
  else if c.toNat < 32 then ['\\', 'u', '0', '0', hexDigit (c.toNat / 16), hexDigit (c.toNat % 16)]
  else [c]

def quote (s : String) : String :=
  String.ofList ('"' :: s.toList.flatMap escape ++ ['"'])

/-- A list of values that are written already. -/
def array (values : List String) : String :=
  "[" ++ ",".intercalate values ++ "]"

/-- A record of values that are written already, in the given order. -/
def record (fields : List (String × String)) : String :=
  "\x7b" ++ ",".intercalate (fields.map fun (name, value) => quote name ++ ":" ++ value) ++ "\x7d"

end CatalogLint.Text.Json
