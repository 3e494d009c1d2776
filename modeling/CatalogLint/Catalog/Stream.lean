import CatalogLint.Catalog.Reader

/-!
# Reading entry by entry

A stream yields the entries of a catalog one after the other, from a single pass over its bytes. In
its state it keeps where the next line starts, the numbers of this line and of the next one, the
character set that a header has named, and of the entry that is being read which message was set
last and whether a string is damaged.
-/
namespace CatalogLint

open Reader

structure Stream where
  data : List UInt8
  charset : Option Charset
  /-- The byte where the next line starts. -/
  offset : Nat
  line : Nat
  nextLine : Nat
  field : Field
  damaged : Bool
  deriving DecidableEq, Repr

namespace Stream

def ofBytes (data : List UInt8) : Stream :=
  ⟨data, none, 0, 1, 1, .comment, false⟩

/-- The next line, without the line feed that ends it. -/
def nextLine? (s : Stream) : Option (List UInt8 × Stream) :=
  if s.data.length ≤ s.offset then none
  else
    let line := (s.data.drop s.offset).takeWhile (· ≠ 10)
    some (line, { s with offset := s.offset + line.length + 1, nextLine := s.nextLine + 1 })

/-- The stream has moved on to a later byte. -/
structure Later (s s' : Stream) : Prop where
  data : s'.data = s.data
  inside : s.offset < s.data.length
  later : s.offset < s'.offset

theorem later_nextLine {s s' : Stream} {line : List UInt8} (h : s.nextLine? = some (line, s')) :
    s.Later s' := by
  rw [nextLine?] at h
  split at h
  · cases h
  · cases h
    exact ⟨rfl, Nat.lt_of_not_le ‹_›, Nat.lt_succ_of_le (Nat.le_add_right _ _)⟩

theorem Later.decreases {s s' : Stream} (h : s.Later s') :
    s'.data.length - s'.offset < s.data.length - s.offset := by
  have := h.inside
  have := h.later
  rw [h.data]
  omega

variable [Charsets]

/-- The string in a line; it is noted if it is damaged. -/
def extract (s : Stream) (line : List UInt8) : String × Stream :=
  let read := decode s.charset (quoted line)
  (String.ofList read.1, { s with damaged := s.damaged || read.2 })

/-- Reads a line with a keyword or a string to continue with. -/
def readMessage (s : Stream) (e : Entry) (line : List UInt8) : Entry × Stream :=
  let r := s.extract line
  if line.head? = some 34 then (continueMessage e s.field r.1, r.2)
  else
    match keyword? line with
    | none => (e, s)
    | some field => (setMessage e field ⟨s.line, r.1⟩, { r.2 with field })

def readLine (s : Stream) (e : Entry) (line : List UInt8) : Entry × Stream :=
  match Text.dropStart? (ascii "#,") line with
  | some flags => (applyFlags e flags, s)
  | none =>
      match Text.dropStart? (ascii "#~ ") line with
      | some rest => s.readMessage { e with obsolete := true } rest
      | none =>
          if (ascii "msg").isPrefixOf line || line.head? = some 34 then s.readMessage e line
          else (e, s)

/-- Completes an entry. If it is a header, it may name the character set of those after it. -/
def finish (s : Stream) (e : Entry) : Option Entry × Stream :=
  let e := { e with damaged := s.damaged }.unescape
  (some e, { s with charset := charsetAfter s.charset e })

/-- Reading a line changes only what is kept about the entry. -/
theorem exists_readMessage (s : Stream) (e : Entry) (line : List UInt8) :
    ∃ field damaged, (s.readMessage e line).2 = { s with field, damaged } := by
  simp only [readMessage]
  split
  · exact ⟨_, _, rfl⟩
  · split
    · exact ⟨_, _, rfl⟩
    · exact ⟨_, _, rfl⟩

theorem exists_readLine (s : Stream) (e : Entry) (line : List UInt8) :
    ∃ field damaged, (s.readLine e line).2 = { s with field, damaged } := by
  rw [readLine]
  split
  · exact ⟨_, _, rfl⟩
  · split
    · exact s.exists_readMessage _ _
    · split
      · exact s.exists_readMessage e line
      · exact ⟨_, _, rfl⟩

theorem Later.readLine {s s' : Stream} (h : s.Later s') (e : Entry) (line : List UInt8) :
    s.Later (s'.readLine e line).2 := by
  obtain ⟨field, damaged, hread⟩ := s'.exists_readLine e line
  rw [hread]
  exact ⟨h.data, h.inside, h.later⟩

/-- Reads the lines of an entry, of which some may have been read; empty lines before them are
passed over. -/
def readEntry (s : Stream) (e : Entry) (started : Bool) : Option Entry × Stream :=
  match _h : s.nextLine? with
  | none => if started then s.finish e else (none, s)
  | some (line, s') =>
      if line.isEmpty then
        if started then s'.finish e
        else readEntry { s' with line := s'.nextLine } { e with line := s'.nextLine } false
      else
        let read := s'.readLine e line
        readEntry { read.2 with line := read.2.nextLine } read.1 true
  termination_by s.data.length - s.offset
  decreasing_by
    · exact (later_nextLine _h).decreases
    · exact ((later_nextLine _h).readLine e line).decreases

/-- The next entry, if there is one. -/
def next (s : Stream) : Option Entry × Stream :=
  readEntry { s with line := s.nextLine, field := .comment, damaged := false }
    (.atLine s.nextLine) false

/-- The stream has moved on when it yields an entry, if no line of it was read before. -/
theorem later_readEntry {s r : Stream} {e e' : Entry} {started : Bool}
    (h : s.readEntry e started = (some e', r)) :
    s.Later r ∨ started = true ∧ r.data = s.data ∧ r.offset = s.offset := by
  fun_induction readEntry s e started with
  | case1 s e hline =>
      cases h
      exact .inr ⟨rfl, rfl, rfl⟩
  | case2 => cases h
  | case3 s e line s' hline hempty =>
      have hlater := later_nextLine hline
      cases h
      exact .inl ⟨hlater.data, hlater.inside, hlater.later⟩
  | case4 s e started line s' hline hempty hstarted ih =>
      have hlater := later_nextLine hline
      rcases ih h with h | h
      · exact .inl ⟨h.data.trans hlater.data, hlater.inside, Nat.lt_trans hlater.later h.later⟩
      · cases h.1
  | case5 s e started line s' hline hempty read ih =>
      have hlater := (later_nextLine hline).readLine e line
      rcases ih h with h | ⟨-, hdata, hoffset⟩
      · exact .inl ⟨h.data.trans hlater.data, hlater.inside, Nat.lt_trans hlater.later h.later⟩
      · exact .inl ⟨hdata.trans hlater.data, hlater.inside, hoffset ▸ hlater.later⟩

theorem later_next {s r : Stream} {e : Entry} (h : s.next = (some e, r)) : s.Later r := by
  rcases later_readEntry h with h | ⟨h, -⟩
  · exact ⟨h.data, h.inside, h.later⟩
  · cases h

/-- All entries that are still to come, and the stream at its end. -/
def entries (s : Stream) : List Entry × Stream :=
  match _h : s.next with
  | (none, s') => ([], s')
  | (some e, s') =>
      let rest := s'.entries
      (e :: rest.1, rest.2)
  termination_by s.data.length - s.offset
  decreasing_by exact (later_next _h).decreases

end Stream

/-- The catalog that a stream reads. -/
def Catalog.stream [Charsets] (data : List UInt8) : Catalog :=
  let r := (Stream.ofBytes data).entries
  ⟨r.1, r.2.charset.getD .utf8⟩

end CatalogLint
