import CatalogLint.Catalog.Escape
import CatalogLint.Catalog.Flag

/-!
# Entries of a catalog

An entry pairs a message, and its plural if it has one, with the translations. The entry with an
empty message is the header.
-/
namespace CatalogLint

/-- A string and the line where it starts. -/
structure Message where
  line : Nat
  text : String
  deriving DecidableEq, Repr

namespace Message

def append (m : Message) (s : String) : Message :=
  { m with text := m.text ++ s }

def unescape (m : Message) : Message :=
  { m with text := Escape.unescape m.text }

end Message

/-- That the strings are, or may be, format strings of a language. -/
structure FormatMark where
  language : Language
  possible : Bool
  deriving DecidableEq, Repr

structure Entry where
  line : Nat
  fuzzy : Bool
  obsolete : Bool
  /-- No rule is to be checked. -/
  unchecked : Bool
  /-- Rules that are not to be checked. -/
  uncheckedRules : List String
  format : Option FormatMark
  /-- Some string is not well-formed in the character set of the catalog. -/
  damaged : Bool
  context : Option Message
  message : Option Message
  plural : Option Message
  /-- By index, in increasing order. -/
  translations : List (Nat × Message)
  deriving DecidableEq, Repr

namespace Entry

def atLine (line : Nat) : Entry :=
  ⟨line, false, false, false, [], none, false, none, none, none, []⟩

/-- A declared format wins over a possible one, and is cancelled by its refusal. Flags of other
languages say nothing. -/
def mark (e : Entry) : FormatFlag → Entry
  | .declared (some l) => { e with format := some ⟨l, false⟩ }
  | .possible (some l) => if e.format.isNone then { e with format := some ⟨l, true⟩ } else e
  | .refused (some l) =>
      if e.format.map FormatMark.language = some l then { e with format := none } else e
  | _ => e

/-- Sets the translation of an index, in place of one that was there. -/
def insertTranslation (index : Nat) (m : Message) : List (Nat × Message) → List (Nat × Message)
  | [] => [(index, m)]
  | (i, n) :: ts =>
      if index < i then (index, m) :: (i, n) :: ts
      else if index = i then (index, m) :: ts
      else (i, n) :: insertTranslation index m ts

def setTranslation (e : Entry) (index : Nat) (m : Message) : Entry :=
  { e with translations := insertTranslation index m e.translations }

def translation? (e : Entry) (index : Nat) : Option Message :=
  (e.translations.find? (·.1 = index)).map Prod.snd

def appendContext (e : Entry) (s : String) : Entry :=
  { e with context := e.context.map (·.append s) }

def appendMessage (e : Entry) (s : String) : Entry :=
  { e with message := e.message.map (·.append s) }

def appendPlural (e : Entry) (s : String) : Entry :=
  { e with plural := e.plural.map (·.append s) }

def appendTranslation (e : Entry) (index : Nat) (s : String) : Entry :=
  { e with
    translations := e.translations.map fun (i, m) => (i, if i = index then m.append s else m) }

def unescape (e : Entry) : Entry :=
  { e with
    context := e.context.map Message.unescape
    message := e.message.map Message.unescape
    plural := e.plural.map Message.unescape
    translations := e.translations.map fun (i, m) => (i, m.unescape) }

def isHeader (e : Entry) : Bool :=
  e.message.any (·.text.isEmpty)

def hasPlural (e : Entry) : Bool :=
  e.plural.isSome

def isTranslated (e : Entry) : Bool :=
  e.translations.any fun (_, m) => !m.text.isEmpty

/-- What the translation of an index translates: the first one the message, the others its
plural, or the message where there is no plural. -/
def source? (e : Entry) (index : Nat) : Option Message :=
  if index = 0 then e.message else e.plural.or e.message

/-- The translations with what they translate. -/
def pairs (e : Entry) : List (Nat × Message × Message) :=
  e.translations.filterMap fun (i, m) => (e.source? i).map fun s => (i, s, m)

end Entry

end CatalogLint
