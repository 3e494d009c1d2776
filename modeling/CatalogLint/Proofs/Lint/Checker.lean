import CatalogLint.Lint.Checker
import CatalogLint.Proofs.Catalog.Stream

/-!
# What a checker reports

A checker that visits an entry reports what its rules have to say about that entry, whatever it was
looking at before (`Checker.reported_visit`). So a run reports the diagnostics of the entries one
after the other (`Checker.diagnose_eq`).
-/
namespace CatalogLint

namespace Stream
variable [Charsets] {s s' : Stream} {e : Entry}

theorem entries_of_none (h : s.next = (none, s')) : s.entries = ([], s') := by
  rw [entries]
  split
  · rename_i h'
    cases h.symm.trans h'
    rfl
  · rename_i h'
    cases h.symm.trans h'

theorem entries_of_some (h : s.next = (some e, s')) :
    s.entries = (e :: s'.entries.1, s'.entries.2) := by
  rw [entries]
  split
  · rename_i h'
    cases h.symm.trans h'
  · rename_i h'
    cases h.symm.trans h'
    rfl

end Stream

namespace Checker
variable {c c' c'' : Checker} {r : Rule} {e : Entry} {ds ds' : List Diagnostic}

/-- A checker has reported some more, and may be looking at something else. -/
def Reported (ds : List Diagnostic) (c c' : Checker) : Prop :=
  ∃ focus, c' = { c with focus, diagnostics := c.diagnostics ++ ds }

theorem reported_nil (c : Checker) : Reported [] c c :=
  ⟨c.focus, by rw [List.append_nil]⟩

theorem Reported.trans (h : Reported ds c c') (h' : Reported ds' c' c'') :
    Reported (ds ++ ds') c c'' := by
  obtain ⟨_, rfl⟩ := h
  obtain ⟨focus, rfl⟩ := h'
  exact ⟨focus, by simp only [List.append_assoc]⟩

theorem Reported.path (h : Reported ds c c') : c'.path = c.path := by
  obtain ⟨_, rfl⟩ := h
  rfl

/-- The checker works with a rule on the translations of an entry. -/
structure WorksOn (r : Rule) (e : Entry) (c : Checker) : Prop where
  rule : c.focus.rule = r.name
  severity : c.focus.severity = r.severity
  plural : c.focus.plural = e.hasPlural

/-- What a rule has to say depends on the entry and on the index, not on how they are kept. -/
theorem finding?_eq (h : c.focus.plural = e.hasPlural) (source translation : String) :
    c.finding? r e source translation = r.inspect e c.focus.index source translation := by
  have hlabels : c.labels = pairLabels e c.focus.index := by
    rw [labels, pairLabels, h]
  rw [finding?, hlabels]
  rfl

theorem reported_inspect (h : c.WorksOn r e) (source translation : String) :
    Reported
      ((r.inspect e c.focus.index source translation).map fun f =>
        { path := c.path
          rule := r.name
          severity := r.severity
          message := f.message
          lines :=
            [⟨c.focus.sourceLine, source, f.source⟩, ⟨0, "", []⟩,
              ⟨c.focus.translationLine, translation, f.translation⟩] }).toList
      c (c.inspect r e source translation) ∧ (c.inspect r e source translation).WorksOn r e := by
  rw [inspect, finding?_eq h.plural]
  cases r.inspect e c.focus.index source translation with
  | none => exact ⟨reported_nil c, h⟩
  | some f =>
      refine ⟨⟨c.focus, ?_⟩, h.rule, h.severity, h.plural⟩
      dsimp only [report]
      rw [h.rule, h.severity]
      rfl

theorem reported_checkPair (h : c.WorksOn r e) (p : ℕ × Message × Message) :
    Reported (CatalogLint.checkPair c.path r e p).toList c (c.checkPair r e p) ∧
      (c.checkPair r e p).WorksOn r e := by
  obtain ⟨index, source, translation⟩ := p
  rw [checkPair, CatalogLint.checkPair]
  split
  · exact ⟨reported_nil c, h⟩
  · let focus :=
      { c.focus with index, sourceLine := source.line, translationLine := translation.line }
    have hworks : WorksOn r e { c with focus } := ⟨h.rule, h.severity, h.plural⟩
    obtain ⟨⟨focus', hc⟩, hworks'⟩ := reported_inspect hworks source.text translation.text
    exact ⟨⟨focus', hc⟩, hworks'⟩

theorem reported_checkPairs (h : c.WorksOn r e) (ps : List (ℕ × Message × Message)) :
    Reported (ps.filterMap (CatalogLint.checkPair c.path r e)) c
      (ps.foldl (checkPair r e) c) := by
  induction ps generalizing c with
  | nil => exact reported_nil c
  | cons p ps ih =>
      obtain ⟨hpair, hworks⟩ := reported_checkPair h p
      have hrest := ih hworks
      rw [hpair.path] at hrest
      rw [List.filterMap_eq_flatMap_toList, List.flatMap_cons, ← List.filterMap_eq_flatMap_toList]
      exact hpair.trans hrest

theorem reported_checkEntry (c : Checker) (r : Rule) (e : Entry) :
    Reported (e.pairs.filterMap (CatalogLint.checkPair c.path r e)) c (c.checkEntry e r) := by
  let focus := { c.focus with rule := r.name, severity := r.severity, plural := e.hasPlural }
  have hworks : WorksOn r e { c with focus } := ⟨rfl, rfl, rfl⟩
  obtain ⟨focus', hc⟩ := reported_checkPairs hworks e.pairs
  exact ⟨focus', hc⟩

theorem reported_checkRules (c : Checker) (rules : List Rule) (e : Entry) :
    Reported (CatalogLint.checkEntry c.path rules e) c
      (rules.foldl
        (fun c r => if e.uncheckedRules.contains r.name then c else c.checkEntry e r) c) := by
  induction rules generalizing c with
  | nil => exact reported_nil c
  | cons r rules ih =>
      rw [List.foldl_cons, CatalogLint.checkEntry]
      cases hskip : e.uncheckedRules.contains r.name with
      | true =>
          rw [List.filter_cons_of_neg (by rw [hskip]; decide)]
          exact ih c
      | false =>
          have hrule := reported_checkEntry c r e
          have hrest := ih (c.checkEntry e r)
          rw [hrule.path] at hrest
          rw [List.filter_cons_of_pos (by rw [hskip]; decide), List.flatMap_cons]
          exact hrule.trans hrest

/-- What a visit adds to the report depends on the entry alone. -/
theorem reported_visit (c : Checker) (e : Entry) :
    Reported (if c.scope.covers e then CatalogLint.checkEntry c.path c.rules e else []) c
      (c.visit e) := by
  rw [visit]
  split
  · exact reported_checkRules c c.rules e
  · exact reported_nil c

variable [Charsets]

/-- A run reports on all entries that are still to come. -/
theorem diagnostics_run (c : Checker) : c.run.diagnostics = c.diagnostics ++
    (c.stream.entries.1.filter c.scope.covers).flatMap (CatalogLint.checkEntry c.path c.rules) := by
  fun_induction run c with
  | case1 c stream h =>
      rw [Stream.entries_of_none h]
      simp
  | case2 c e stream h ih =>
      obtain ⟨focus, hvisit⟩ := reported_visit { c with stream } e
      rw [ih, hvisit, Stream.entries_of_some h, List.filter_cons]
      dsimp only
      split
      · rw [List.flatMap_cons, List.append_assoc]
      · rw [List.append_nil]

/-- The report of a checker is that of the catalog. -/
theorem diagnose_eq (path : String) (rules : List Rule) (scope : CheckScope) (data : List UInt8) :
    diagnose path rules scope data = (Catalog.read data).check path rules scope := by
  rw [diagnose, diagnostics_run, ← Catalog.stream_eq_read]
  rfl

end Checker

end CatalogLint
