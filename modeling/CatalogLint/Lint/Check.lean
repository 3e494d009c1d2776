import CatalogLint.Catalog.Reader
import CatalogLint.Files.Lookup
import CatalogLint.Format.Meaning
import CatalogLint.Lint.Rule

/-!
# Checking catalogs

Every rule looks at every pair of a message and its translation, entry by entry. The header,
entries without a translation and empty translations are never checked; fuzzy, unchecked and
obsolete entries only on request.
-/
namespace CatalogLint

def Language.name : Language → String
  | .d => "D"

/-- What a rule has to say about a pair, and what it highlights in both strings. -/
structure Finding where
  message : String
  source : List Span
  translation : List Span
  deriving DecidableEq, Repr

/-- How the strings of a pair are called: only the first translation is one of the message. -/
def pairLabels (e : Entry) (index : Nat) : Labels :=
  { message := if index = 0 then "msgid" else "msgid_plural"
    translation := if e.hasPlural then s!"msgstr[{index}]" else "msgstr" }

namespace Rule

/-- Compares the arguments of both strings. A message that is no format string is left alone, and
so is one that may be none and hardly is. -/
def compareFormats (mark : FormatMark) (labels : Labels) (source translation : String) :
    Option Finding :=
  let s := FormatString.parse source
  let t := FormatString.parse translation
  match s.result with
  | .error _ => none
  | .ok f =>
      if mark.possible && f.isUnlikely then none
      else
        match t.result with
        | .error fault =>
            let unlike := s!"string, unlike '{labels.message}'. Reason: {fault.message}"
            let complaint :=
              s!"'{labels.translation}' is not a valid {mark.language.name} format {unlike}"
            some ⟨complaint, s.spans, t.faultSpan?.toList⟩
        | .ok g =>
            (FormatString.check labels f g).map fun complaint => ⟨complaint, s.spans, t.spans⟩

/-- Finds format strings of which all directives have a space flag. -/
def findUnlikely (mark : FormatMark) (labels : Labels) (index : Nat)
    (source translation : String) : Option Finding :=
  if mark.possible || index ≠ 0 then none
  else
    let s := FormatString.parse source
    match s.result with
    | .error _ => none
    | .ok f =>
        if f.directives ≠ 0 && f.isUnlikely then
          some
            { message := s!"'{labels.message}' is probably not a {mark.language.name} format string"
              source := s.spans
              translation := (FormatString.parse translation).spans }
        else none

def inspect (r : Rule) (e : Entry) (index : Nat) (source translation : String) : Option Finding :=
  e.format.bind fun mark =>
    let labels := pairLabels e index
    match r with
    | .formats => compareFormats mark labels source translation
    | .unlikelyFormat => findUnlikely mark labels index source translation

end Rule

/-- What is checked besides ordinary entries. -/
structure CheckScope where
  fuzzy : Bool
  unchecked : Bool
  obsolete : Bool
  deriving DecidableEq, Repr

namespace CheckScope

def covers (s : CheckScope) (e : Entry) : Bool :=
  !e.isHeader && e.isTranslated && (s.fuzzy || !e.fuzzy) && (s.unchecked || !e.unchecked) &&
    (s.obsolete || !e.obsolete)

end CheckScope

/-- The diagnostic of a rule about a pair. -/
def checkPair (path : String) (r : Rule) (e : Entry) :
    Nat × Message × Message → Option Diagnostic
  | (index, source, translation) =>
      if translation.text.isEmpty then none
      else
        (r.inspect e index source.text translation.text).map fun f =>
          { path
            rule := r.name
            severity := r.severity
            message := f.message
            lines :=
              [⟨source.line, source.text, f.source⟩, ⟨0, "", []⟩,
                ⟨translation.line, translation.text, f.translation⟩] }

/-- The diagnostics of an entry, rule by rule. -/
def checkEntry (path : String) (rules : List Rule) (e : Entry) : List Diagnostic :=
  (rules.filter fun r => !e.uncheckedRules.contains r.name).flatMap fun r =>
    e.pairs.filterMap (checkPair path r e)

/-- A diagnostic is what a rule has found in a pair. -/
theorem exists_finding {path : String} {r : Rule} {e : Entry} {index : Nat}
    {source translation : Message} {d : Diagnostic}
    (h : checkPair path r e (index, source, translation) = some d) :
    ∃ f, r.inspect e index source.text translation.text = some f ∧ d =
      { path
        rule := r.name
        severity := r.severity
        message := f.message
        lines :=
          [⟨source.line, source.text, f.source⟩, ⟨0, "", []⟩,
            ⟨translation.line, translation.text, f.translation⟩] } := by
  rw [checkPair] at h
  split at h
  · cases h
  · obtain ⟨f, hf, rfl⟩ := Option.map_eq_some_iff.mp h
    exact ⟨f, hf, rfl⟩

/-- A diagnostic of an entry is one of a pair, by a rule that the entry is to be checked with. -/
theorem exists_pair {path : String} {rules : List Rule} {e : Entry} {d : Diagnostic}
    (h : d ∈ checkEntry path rules e) : ∃ r ∈ rules, r.name ∉ e.uncheckedRules ∧
      ∃ index source translation, (index, source, translation) ∈ e.pairs ∧
        checkPair path r e (index, source, translation) = some d := by
  obtain ⟨r, hr, hd⟩ := List.mem_flatMap.mp h
  obtain ⟨⟨index, source, translation⟩, hpair, hd⟩ := List.mem_filterMap.mp hd
  obtain ⟨hr, hskip⟩ := List.mem_filter.mp hr
  exact ⟨r, hr, by simpa using hskip, index, source, translation, hpair, hd⟩

def Catalog.check (c : Catalog) (path : String) (rules : List Rule) (scope : CheckScope) :
    List Diagnostic :=
  (c.entries.filter scope.covers).flatMap (checkEntry path rules)

/-- The diagnostics of a file; that it cannot be read is one too. -/
def checkFile [Charsets] (path : String) (rules : List Rule) (scope : CheckScope) :
    Content → List Diagnostic
  | .ok data => (Catalog.read data).check path rules scope
  | .error e =>
      [{ path
         rule := "read-error"
         severity := .error
         message := s!"could not read file: {e.reason}"
         lines := [] }]

end CatalogLint
