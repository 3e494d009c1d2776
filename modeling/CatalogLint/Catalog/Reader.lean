import CatalogLint.Catalog.Entry
import CatalogLint.Charset.Basic
import CatalogLint.Text.Utf8

/-!
# Reading catalogs

An entry is a run of lines without an empty line among them. Of its lines, those that start with
`#,` hold flags, a keyword and a quoted string set a message, and a quoted string alone continues
the message that was set last; `#~ ` in front of a line makes the entry obsolete. All other lines
are comments. What an entry holds depends on its own lines and on the character set that a header
before it has named, on nothing else.
-/
namespace CatalogLint
variable [Charsets]

namespace Reader

/-- The bytes of ASCII text. -/
def ascii (s : String) : List UInt8 :=
  Text.encode s.toList

/-- The message that a line without a keyword continues. -/
inductive Field where
  | comment | context | message | plural
  | translation (index : Nat)
  deriving DecidableEq, Repr

/-- An entry of which some lines have been read. -/
structure Draft where
  entry : Entry
  field : Field
  deriving DecidableEq, Repr

def Draft.start (line : Nat) : Draft :=
  ⟨.atLine line, .comment⟩

/-- What stands between the first and the last quote of a line; nothing unless there are two. -/
def quoted (line : List UInt8) : List UInt8 :=
  let rest := (line.dropWhile (· ≠ 34)).drop 1
  ((rest.reverse.dropWhile (· ≠ 34)).drop 1).reverse

/-- The text of a string in the character set of the catalog, UTF-8 unless one is named, and whether
it is damaged. -/
def decode (set : Option Charset) (bs : List UInt8) : List Char × Bool :=
  match set with
  | none =>
      let cs := Text.Utf8.decode bs
      (Text.lossy cs, Text.isDamaged cs)
  | some c => Charsets.decode c bs

/-- Notes whether a string is damaged. -/
def Draft.inspect (d : Draft) (damaged : Bool) : Draft :=
  { d with entry := { d.entry with damaged := d.entry.damaged || damaged } }

def isDigit (b : UInt8) : Bool :=
  48 ≤ b && b ≤ 57

/-- The largest index of a translation. -/
def largestIndex : Nat := UInt32.size - 1

/-- The index of a translation: digits, a plus sign before them being allowed. -/
def index? (bs : List UInt8) : Option Nat :=
  let digits :=
    match bs with
    | 43 :: rest => rest
    | _ => bs
  if digits.isEmpty || !digits.all isDigit then none
  else
    let n := digits.foldl (fun n b => 10 * n + (b.toNat - 48)) 0
    if n ≤ largestIndex then some n else none

/-- The message that the keyword of a line sets. -/
def keyword? (line : List UInt8) : Option Field :=
  let startsWith (s : String) := (ascii s).isPrefixOf line
  if startsWith "msgctxt" then some .context
  else if startsWith "msgid_plural" then some .plural
  else if startsWith "msgid" then some .message
  else
    match Text.dropStart? (ascii "msgstr[") line with
    | some rest =>
        (Text.splitFirst 93 rest).bind fun (digits, _) => (index? digits).map .translation
    | none => if startsWith "msgstr" then some (.translation 0) else none

/-- Continues a message, if it has been set. -/
def continueMessage (e : Entry) (field : Field) (s : String) : Entry :=
  match field with
  | .comment => e
  | .context => e.appendContext s
  | .message => e.appendMessage s
  | .plural => e.appendPlural s
  | .translation i => e.appendTranslation i s

/-- Sets a message, in place of one that was there. -/
def setMessage (e : Entry) (field : Field) (m : Message) : Entry :=
  match field with
  | .comment => e
  | .context => { e with context := some m }
  | .message => { e with message := some m }
  | .plural => { e with plural := some m }
  | .translation i => e.setTranslation i m

/-- Reads a line with a keyword or a string to continue with. -/
def Draft.readMessage (set : Option Charset) (number : Nat) (d : Draft) (line : List UInt8) :
    Draft :=
  let read := decode set (quoted line)
  let text := String.ofList read.1
  if line.head? = some 34 then
    let d := d.inspect read.2
    { d with entry := continueMessage d.entry d.field text }
  else
    match keyword? line with
    | none => d
    | some field => { entry := setMessage (d.inspect read.2).entry field ⟨number, text⟩, field }

/-- Applies one flag. A list of rules takes the place of the one before it. -/
def applyFlag (e : Entry) (flag : List Char) : Entry :=
  if flag = "fuzzy".toList then { e with fuzzy := true }
  else if flag = "noqa".toList then { e with unchecked := true }
  else
    match Text.dropStart? "noqa:".toList flag with
    | some rules =>
        let names := ((Text.splitOn ';' rules).map Text.trim).filter (!·.isEmpty)
        { e with uncheckedRules := names.map String.ofList }
    | none =>
        match FormatFlag.ofText? flag with
        | some f => e.mark f
        | none => e

/-- Applies the flags of a line. -/
def applyFlags (e : Entry) (line : List UInt8) : Entry :=
  ((Text.splitOn ',' (Text.ofBytes line)).map Text.trim).foldl applyFlag e

def Draft.readLine (set : Option Charset) (d : Draft) (number : Nat) (line : List UInt8) : Draft :=
  match Text.dropStart? (ascii "#,") line with
  | some flags => { d with entry := applyFlags d.entry flags }
  | none =>
      match Text.dropStart? (ascii "#~ ") line with
      | some rest =>
          Draft.readMessage set number { d with entry := { d.entry with obsolete := true } } rest
      | none =>
          if (ascii "msg").isPrefixOf line || line.head? = some 34 then
            d.readMessage set number line
          else d

/-- The entry of a run of lines. -/
def entryOf (set : Option Charset) (run : List (Nat × List UInt8)) : Entry :=
  let first := (run.head?.map Prod.fst).getD 0
  let read (d : Draft) (line : Nat × List UInt8) := d.readLine set line.1 line.2
  (run.foldl read (Draft.start first)).entry.unescape

/-- The character set that a line of the header names; UTF-8 is named by none. -/
def charsetOf? (line : List Char) : Option Charset := do
  let (keyword, value) ← Text.splitFirst ':' line
  if (Text.trim keyword).map Char.toLower ≠ "content-type".toList then none
  else
    let rest ← Text.after? "charset=".toList value
    let set ← Charsets.ofLabel? (rest.takeWhile fun c => !(Text.isBlank c || c = ';'))
    if set = .utf8 then none else some set

/-- The character set after an entry: the one that a header names last, or the one before. -/
def charsetAfter (set : Option Charset) (e : Entry) : Option Charset :=
  if e.isHeader then
    match e.translation? 0 with
    | none => set
    | some m =>
        (Text.lines m.text.toList).foldl (fun set line => (charsetOf? line).or set) set
  else set

/-- The runs of lines that are not empty, with their numbers. -/
def runs : List (Nat × List UInt8) → List (List (Nat × List UInt8))
  | [] => []
  | (n, line) :: rest =>
      if line.isEmpty then runs rest
      else
        match rest with
        | [] => [[(n, line)]]
        | (_, next) :: _ =>
            if next.isEmpty then [(n, line)] :: runs rest
            else
              match runs rest with
              | [] => [[(n, line)]]
              | run :: more => ((n, line) :: run) :: more

def numbered (data : List UInt8) : List (Nat × List UInt8) :=
  (Text.byteLines data).zipIdx.map fun (line, n) => (n + 1, line)

/-- The entries of the runs, in a character set that headers may change. -/
def entries : Option Charset → List (List (Nat × List UInt8)) → List Entry × Option Charset
  | set, [] => ([], set)
  | set, run :: more =>
      let e := entryOf set run
      let (es, last) := entries (charsetAfter set e) more
      (e :: es, last)

end Reader

/-- The entries of a catalog, and the character set named last. -/
structure Catalog where
  entries : List Entry
  charset : Charset
  deriving DecidableEq, Repr

def Catalog.read (data : List UInt8) : Catalog :=
  let (es, set) := Reader.entries none (Reader.runs (Reader.numbered data))
  ⟨es, set.getD .utf8⟩

end CatalogLint
