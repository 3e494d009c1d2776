import CatalogLint.Catalog.Stream
import CatalogLint.Lint.Check

/-!
# Checking entry by entry

A checker takes the entries of a catalog from a stream and has its rules look at the pairs of each
one. What is looked at right now it keeps in its state, from where rules and reports take it: the
rule, the index of the translation, the lines of both strings. Nothing of it is cleared in between;
whatever comes next is written over it.
-/
namespace CatalogLint

/-- What a checker is looking at. -/
structure Focus where
  rule : String
  severity : Severity
  index : Nat
  plural : Bool
  sourceLine : Nat
  translationLine : Nat
  deriving DecidableEq, Repr

structure Checker where
  path : String
  rules : List Rule
  scope : CheckScope
  stream : Stream
  focus : Focus
  /-- What has been reported so far. -/
  diagnostics : List Diagnostic
  deriving DecidableEq, Repr

namespace Checker

def ofBytes (path : String) (rules : List Rule) (scope : CheckScope) (data : List UInt8) :
    Checker :=
  ⟨path, rules, scope, .ofBytes data, ⟨"", .info, 0, false, 0, 0⟩, []⟩

/-- How the strings that are looked at are called. -/
def labels (c : Checker) : Labels :=
  { message := if c.focus.index = 0 then "msgid" else "msgid_plural"
    translation := if c.focus.plural then s!"msgstr[{c.focus.index}]" else "msgstr" }

def report (c : Checker) (f : Finding) (source translation : String) : Checker :=
  { c with
    diagnostics := c.diagnostics ++
      [{ path := c.path
         rule := c.focus.rule
         severity := c.focus.severity
         message := f.message
         lines :=
          [⟨c.focus.sourceLine, source, f.source⟩, ⟨0, "", []⟩,
            ⟨c.focus.translationLine, translation, f.translation⟩] }] }

/-- What a rule has to say about the strings that are looked at. -/
def finding? (c : Checker) (r : Rule) (e : Entry) (source translation : String) :
    Option Finding :=
  e.format.bind fun mark =>
    match r with
    | .formats => Rule.compareFormats mark c.labels source translation
    | .unlikelyFormat => Rule.findUnlikely mark c.labels c.focus.index source translation

/-- Has a rule look at two strings. -/
def inspect (c : Checker) (r : Rule) (e : Entry) (source translation : String) : Checker :=
  match c.finding? r e source translation with
  | none => c
  | some f => c.report f source translation

/-- Has a rule look at a pair of an entry, unless the translation is empty. -/
def checkPair (r : Rule) (e : Entry) (c : Checker) : Nat × Message × Message → Checker
  | (index, source, translation) =>
      if translation.text.isEmpty then c
      else
        let focus :=
          { c.focus with index, sourceLine := source.line, translationLine := translation.line }
        inspect { c with focus } r e source.text translation.text

/-- Has a rule look at an entry. -/
def checkEntry (c : Checker) (e : Entry) (r : Rule) : Checker :=
  let focus := { c.focus with rule := r.name, severity := r.severity, plural := e.hasPlural }
  e.pairs.foldl (checkPair r e) { c with focus }

/-- Has all rules look at an entry, except those that it is not to be checked with. -/
def visit (c : Checker) (e : Entry) : Checker :=
  if c.scope.covers e then
    c.rules.foldl
      (fun c r => if e.uncheckedRules.contains r.name then c else c.checkEntry e r) c
  else c

theorem stream_foldl {α : Type} {step : Checker → α → Checker}
    (h : ∀ c a, (step c a).stream = c.stream) (c : Checker) (as : List α) :
    (as.foldl step c).stream = c.stream := by
  induction as generalizing c with
  | nil => rfl
  | cons a as ih => rw [List.foldl_cons, ih, h]

theorem stream_checkPair (r : Rule) (e : Entry) (c : Checker) (p : Nat × Message × Message) :
    (c.checkPair r e p).stream = c.stream := by
  rw [checkPair]
  split
  · rfl
  · rw [inspect]
    split <;> rfl

/-- Only the stream itself moves on. -/
theorem stream_visit (c : Checker) (e : Entry) : (c.visit e).stream = c.stream := by
  rw [visit]
  split
  · apply stream_foldl
    intro c r
    split
    · rfl
    · exact stream_foldl (stream_checkPair r e) _ e.pairs
  · rfl

variable [Charsets]

/-- Visits all entries that are still to come. -/
def run (c : Checker) : Checker :=
  match _h : c.stream.next with
  | (none, stream) => { c with stream }
  | (some e, stream) => run (visit { c with stream } e)
  termination_by c.stream.data.length - c.stream.offset
  decreasing_by
    rw [stream_visit]
    exact (Stream.later_next _h).decreases

/-- The diagnostics of a catalog, in the order in which they are reported. -/
def diagnose (path : String) (rules : List Rule) (scope : CheckScope) (data : List UInt8) :
    List Diagnostic :=
  (ofBytes path rules scope data).run.diagnostics

end Checker

end CatalogLint
