import CatalogLint.Charset.Basic
import CatalogLint.Charset.SingleByte
import CatalogLint.Charset.Utf16
import CatalogLint.Text.Utf8

/-!
# Known character sets

The sets that come with the program: UTF-8, UTF-16 and some sets of one byte. A label that is not
listed here names no set. A byte order mark at the start of a string names the set of that string.
-/
namespace CatalogLint

inductive KnownCharset where
  | utf8
  | utf16 (order : Charset.Utf16.ByteOrder)
  | single (set : Charset.SingleByte)
  /-- A set that is never decoded, since its bytes could be made to look harmless. -/
  | refused
  deriving DecidableEq, Repr

namespace KnownCharset

def name : KnownCharset → String
  | .utf8 => "UTF-8"
  | .utf16 .little => "UTF-16LE"
  | .utf16 .big => "UTF-16BE"
  | .single .latin2 => "ISO-8859-2"
  | .single .latin9 => "ISO-8859-15"
  | .single .windowsCyrillic => "windows-1251"
  | .single .windowsLatin => "windows-1252"
  | .single .windowsGreek => "windows-1253"
  | .single .userDefined => "x-user-defined"
  | .refused => "replacement"

/-- The labels of each set, in lower case. -/
def labels : List (KnownCharset × List String) :=
  [(.utf8, ["unicode-1-1-utf-8", "unicode11utf8", "unicode20utf8", "utf-8", "utf8",
      "x-unicode20utf8"]),
    (.utf16 .little, ["csunicode", "iso-10646-ucs-2", "ucs-2", "unicode", "unicodefeff", "utf-16",
      "utf-16le"]),
    (.utf16 .big, ["unicodefffe", "utf-16be"]),
    (.single .latin2, ["csisolatin2", "iso-8859-2", "iso-ir-101", "iso8859-2", "iso88592",
      "iso_8859-2", "iso_8859-2:1987", "l2", "latin2"]),
    (.single .latin9, ["csisolatin9", "iso-8859-15", "iso8859-15", "iso885915", "iso_8859-15",
      "l9"]),
    (.single .windowsCyrillic, ["cp1251", "windows-1251", "x-cp1251"]),
    (.single .windowsLatin, ["ansi_x3.4-1968", "ascii", "cp1252", "cp819", "csisolatin1", "ibm819",
      "iso-8859-1", "iso-ir-100", "iso8859-1", "iso88591", "iso_8859-1", "iso_8859-1:1987", "l1",
      "latin1", "us-ascii", "windows-1252", "x-cp1252"]),
    (.single .windowsGreek, ["cp1253", "windows-1253", "x-cp1253"]),
    (.single .userDefined, ["x-user-defined"]),
    (.refused, ["csiso2022kr", "hz-gb-2312", "iso-2022-cn", "iso-2022-cn-ext", "iso-2022-kr",
      "replacement"])]

/-- The set that a label names, upper and lower case being the same. -/
def ofLabel? (label : List Char) : Option KnownCharset :=
  let lower := String.ofList (label.map Char.toLower)
  (labels.find? fun entry => entry.2.contains lower).map Prod.fst

def ofName? (name : String) : Option KnownCharset :=
  (labels.map Prod.fst).find? (·.name = name)

/-- Reads bytes in a set, taking them as they are. -/
def decodeAll : KnownCharset → List UInt8 → List (Option Char)
  | .utf8, bs => Text.Utf8.decode bs
  | .utf16 order, bs => Charset.Utf16.decode order bs
  | .single set, bs => set.decode bs
  | .refused, bs => if bs.isEmpty then [] else [none]

/-- Reads bytes in a set, unless a byte order mark at their start names another one; the mark is
no text. -/
def decode (set : KnownCharset) : List UInt8 → List (Option Char)
  | 0xEF :: 0xBB :: 0xBF :: bs => KnownCharset.utf8.decodeAll bs
  | 0xFF :: 0xFE :: bs => (KnownCharset.utf16 .little).decodeAll bs
  | 0xFE :: 0xFF :: bs => (KnownCharset.utf16 .big).decodeAll bs
  | bs => set.decodeAll bs

end KnownCharset

instance : Charsets where
  ofLabel? label := (KnownCharset.ofLabel? label).map fun set => ⟨set.name⟩
  decode set bs :=
    let cs := ((KnownCharset.ofName? set.name).getD .utf8).decode bs
    (Text.lossy cs, Text.isDamaged cs)

end CatalogLint
