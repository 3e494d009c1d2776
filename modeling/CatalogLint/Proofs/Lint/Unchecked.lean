import CatalogLint.Charset.Known
import CatalogLint.Proofs.Catalog.Flags
import CatalogLint.Proofs.Catalog.Runs
import CatalogLint.Proofs.Lint.Checker

/-!
# What is not reported

A diagnostic is about the run of lines that its message comes from. Whatever other flags there are,
nothing is reported about a run with the flag `noqa`, unless such entries are checked too, and no
diagnostic about a run is of a rule in the last list of rules in it (`Checker.diagnose_unchecked`).
A list before the last one has no effect (`Checker.not_unchecked_of_mem_ruleLists`).
-/
namespace CatalogLint

open Reader

/-- The first line of a diagnostic is the message that it is about. -/
def Diagnostic.IsAbout (d : Diagnostic) (run : List (ℕ × List UInt8)) : Prop :=
  ∃ l ∈ d.lines.head?, l.number ∈ run.map Prod.fst

variable {e : Entry} {d : Diagnostic} {path : String} {rules : List Rule} {scope : CheckScope}
  {data : List UInt8}

theorem mem_entries [Charsets] {set : Option Charset} {rs : List (List (ℕ × List UInt8))}
    (h : e ∈ (entries set rs).1) : ∃ run ∈ rs, ∃ set', e = entryOf set' run := by
  induction rs generalizing set with
  | nil => cases h
  | cons run rs ih =>
      rcases List.mem_cons.mp h with rfl | h
      · exact ⟨run, List.mem_cons_self, set, rfl⟩
      · obtain ⟨run', hrun, he⟩ := ih h
        exact ⟨run', List.mem_cons_of_mem run hrun, he⟩

/-- A message of an entry stands in the run of the entry. -/
theorem lineAt?_mem_run [Charsets] {set : Option Charset} {run : List (ℕ × List UInt8)}
    {field : Field} {n : ℕ} (h : (entryOf set run).lineAt? field = some n) :
    n ∈ run.map Prod.fst := by
  rw [lineAt?_entryOf] at h
  obtain ⟨line, hline, rfl⟩ := Option.map_eq_some_iff.mp h
  exact List.mem_map_of_mem (List.mem_of_mem_filter (List.mem_of_getLast? hline))

/-- What is translated is the message or its plural. -/
theorem Entry.lineAt?_of_mem_pairs {index : ℕ} {source translation : Message}
    (h : (index, source, translation) ∈ e.pairs) : ∃ field, e.lineAt? field = some source.line := by
  obtain ⟨⟨i, m⟩, -, hpair⟩ := List.mem_filterMap.mp h
  obtain ⟨s, hs, hpair⟩ := Option.map_eq_some_iff.mp hpair
  cases hpair
  rw [source?] at hs
  split at hs
  · exact ⟨.message, by rw [lineAt?, messageAt?, hs]; rfl⟩
  · rcases Option.or_eq_some_iff.mp hs with hs | ⟨-, hs⟩
    · exact ⟨.plural, by rw [lineAt?, messageAt?, hs]; rfl⟩
    · exact ⟨.message, by rw [lineAt?, messageAt?, hs]; rfl⟩

/-- A diagnostic of an entry shows a message of the entry first, and is of a rule that the entry is
to be checked with. -/
theorem of_mem_checkEntry (h : d ∈ checkEntry path rules e) : d.rule ∉ e.uncheckedRules ∧
    ∃ l ∈ d.lines.head?, ∃ field, e.lineAt? field = some l.number := by
  obtain ⟨r, -, hskip, index, source, translation, hpair, hd⟩ := exists_pair h
  obtain ⟨f, -, rfl⟩ := exists_finding hd
  exact ⟨hskip, _, rfl, Entry.lineAt?_of_mem_pairs hpair⟩

theorem CheckScope.unchecked_of_covers (h : scope.covers e = true) (he : e.unchecked = true) :
    scope.unchecked = true := by
  simp only [covers, Bool.and_eq_true, Bool.or_eq_true, he] at h
  simpa using h.1.2

/-- A diagnostic comes from an entry that is checked, and is about the run of this entry. -/
theorem Checker.exists_of_mem_diagnose [Charsets] (h : d ∈ diagnose path rules scope data) :
    ∃ run ∈ maximalRuns data, d.IsAbout run ∧
      ∃ set, scope.covers (entryOf set run) = true ∧
        d ∈ CatalogLint.checkEntry path rules (entryOf set run) := by
  rw [diagnose_eq, Catalog.check] at h
  obtain ⟨e, he, hd⟩ := List.mem_flatMap.mp h
  obtain ⟨he, hcovers⟩ := List.mem_filter.mp he
  obtain ⟨run, hrun, set, rfl⟩ := mem_entries he
  rw [runs_numbered] at hrun
  obtain ⟨l, hl, field, hfield⟩ := (of_mem_checkEntry hd).2
  exact ⟨run, hrun, ⟨l, hl, lineAt?_mem_run hfield⟩, set, hcovers, hd⟩

theorem Diagnostic.IsAbout.unique {run run' : List (ℕ × List UInt8)} (h : d.IsAbout run)
    (h' : d.IsAbout run') (hrun : run ∈ maximalRuns data) (hrun' : run' ∈ maximalRuns data) :
    run = run' := by
  obtain ⟨l, hl, hn⟩ := h
  obtain ⟨l', hl', hn'⟩ := h'
  cases Option.mem_unique hl hl'
  exact eq_of_mem_line hrun hrun' hn hn'

namespace Checker

/-- A diagnostic is about one run of lines. If the flag `noqa` is in it, then such entries are
checked too, and the last list of rules in it does not have the rule of the diagnostic, wherever
those flags stand and whatever other flags there are. -/
theorem diagnose_unchecked [Charsets] (path : String) (rules : List Rule) (scope : CheckScope)
    (data : List UInt8) (hd : d ∈ diagnose path rules scope data) :
    ∃ run ∈ maximalRuns data, d.IsAbout run ∧
      (∀ run' ∈ maximalRuns data, d.IsAbout run' → run' = run) ∧
      ("noqa".toList ∈ flagsOf run → scope.unchecked = true) ∧
      ∀ names ∈ (ruleLists run).getLast?, d.rule ∉ names := by
  obtain ⟨run, hrun, habout, set, hcovers, hentry⟩ := exists_of_mem_diagnose hd
  refine ⟨run, hrun, habout, fun run' hrun' h => h.unique habout hrun' hrun, fun hnoqa => ?_,
    fun names hnames => ?_⟩
  · refine CheckScope.unchecked_of_covers hcovers ?_
    rw [unchecked_entryOf]
    exact decide_eq_true hnoqa
  · have hrule := (of_mem_checkEntry hentry).1
    rw [uncheckedRules_entryOf, Option.mem_def.mp hnames] at hrule
    exact hrule

/-- Both rules object to the strings, and one of them is in the list. -/
theorem diagnose_unchecked_blanks :
    let data := ("#, noqa:, d-format\n#,noqa: other ;d-format-unlikely; , fuzzy\n" ++
      "msgid \"% d\"\nmsgstr \"%s\"\n").toUTF8.toList
    let rules : List Rule := [.unlikelyFormat, .formats]
    let scope : CheckScope := ⟨true, false, false⟩
    ∃ d, (diagnose "de.po" rules scope data) = [d] ∧ d.rule = "d-formats" ∧
      ∃ run ∈ maximalRuns data, d.IsAbout run ∧
        ruleLists run = [[], ["other", "d-format-unlikely"]] ∧
        ∀ names ∈ (ruleLists run).getLast?, d.rule ∉ names := by
  intro data rules scope
  have hrules : (diagnose "de.po" rules scope data).map Diagnostic.rule = ["d-formats"] := by
    rw [diagnose_eq]
    decide +kernel
  obtain ⟨d, hd, hrule⟩ := List.map_eq_singleton_iff.mp hrules
  have hmem : d ∈ diagnose "de.po" rules scope data := by
    rw [hd]
    exact List.mem_singleton_self d
  obtain ⟨run, hrun, habout, -, -, hnames⟩ := diagnose_unchecked "de.po" rules scope data hmem
  have hlists : ∀ run ∈ maximalRuns data,
      ruleLists run = [[], ["other", "d-format-unlikely"]] := by
    decide +kernel
  exact ⟨d, hd, hrule, run, hrun, habout, hlists run hrun, hnames⟩

/-- A list of rules has no effect if there is another one behind it. -/
theorem not_unchecked_of_mem_ruleLists :
    let data := ("#, d-format, noqa:d-formats\n#, noqa:d-format-unlikely\n" ++
      "msgid \"%s\"\nmsgstr \"%d\"\n").toUTF8.toList
    ∃ d ∈ diagnose "fr.po" [.formats] ⟨false, false, false⟩ data,
      ∃ run ∈ maximalRuns data, d.IsAbout run ∧ ∃ names ∈ ruleLists run, d.rule ∈ names := by
  intro data
  have hrules : "d-formats" ∈
      (diagnose "fr.po" [.formats] ⟨false, false, false⟩ data).map Diagnostic.rule := by
    rw [diagnose_eq]
    decide +kernel
  obtain ⟨d, hmem, hrule⟩ := List.mem_map.mp hrules
  obtain ⟨run, hrun, habout, -⟩ := exists_of_mem_diagnose hmem
  have hlists : ∀ run ∈ maximalRuns data, ["d-formats"] ∈ ruleLists run := by
    decide +kernel
  exact ⟨d, hmem, run, hrun, habout, ["d-formats"], hlists run hrun,
    by rw [hrule]; exact List.mem_singleton_self _⟩

end Checker

end CatalogLint
