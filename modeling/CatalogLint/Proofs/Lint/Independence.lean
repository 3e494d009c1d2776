import Mathlib.Data.List.Basic
import Mathlib.Data.List.Flatten
import CatalogLint.Charset.Known
import CatalogLint.Proofs.Lint.Checker

/-!
# Rules do not interfere

What a rule reports does not depend on the rules that run with it, nor on their order, and to check
more entries adds diagnostics and takes none away (`Checker.diagnose_independent`).
-/
namespace CatalogLint
variable {path : String} {rules : List Rule} {r q : Rule} {e : Entry}

theorem Rule.name_injective : Function.Injective Rule.name := by
  intro r q h
  cases r <;> cases q
  all_goals first | rfl | exact absurd h (by decide)

/-- A diagnostic bears the name of the rule that has reported it. -/
theorem rule_of_mem_checkPairs {ps : List (ℕ × Message × Message)} {d : Diagnostic}
    (h : d ∈ ps.filterMap (checkPair path r e)) : d.rule = r.name := by
  obtain ⟨⟨index, source, translation⟩, -, hd⟩ := List.mem_filterMap.mp h
  obtain ⟨f, -, rfl⟩ := exists_finding hd
  rfl

theorem filter_checkPairs (ps : List (ℕ × Message × Message)) :
    (ps.filterMap (checkPair path q e)).filter (fun d => d.rule = r.name) =
      if q = r then ps.filterMap (checkPair path q e) else [] := by
  split
  · rename_i hq
    rw [List.filter_eq_self]
    exact fun d hd => decide_eq_true (hq ▸ rule_of_mem_checkPairs hd)
  · rename_i hq
    rw [List.filter_eq_nil_iff]
    intro d hd hname
    rw [rule_of_mem_checkPairs hd, decide_eq_true_eq] at hname
    exact hq (Rule.name_injective hname)

theorem flatMap_ite {α β : Type} (p : α → Prop) [DecidablePred p] (f : α → List β)
    (as : List α) : (as.flatMap fun a => if p a then f a else []) = (as.filter p).flatMap f := by
  induction as with
  | nil => rfl
  | cons a as ih =>
      rw [List.flatMap_cons, ih, List.filter_cons]
      by_cases h : p a <;> simp [h]

/-- What a rule says of an entry, it says on its own. -/
theorem filter_checkEntry (rules : List Rule) (r : Rule) (e : Entry) :
    (checkEntry path rules e).filter (fun d => d.rule = r.name) =
      checkEntry path (rules.filter (· = r)) e := by
  rw [checkEntry, checkEntry, List.filter_flatMap, List.filter_comm, ← flatMap_ite]
  exact congrArg (List.flatMap · _) (funext fun q => filter_checkPairs e.pairs)

theorem Catalog.filter_check (c : Catalog) (scope : CheckScope) :
    (c.check path rules scope).filter (fun d => d.rule = r.name) =
      c.check path (rules.filter (· = r)) scope := by
  rw [check, check, List.filter_flatMap]
  exact congrArg (List.flatMap · _) (funext fun e => filter_checkEntry rules r e)

/-- What is checked at all is also checked in a wider scope. -/
structure CheckScope.Within (s t : CheckScope) : Prop where
  fuzzy : s.fuzzy → t.fuzzy
  unchecked : s.unchecked → t.unchecked
  obsolete : s.obsolete → t.obsolete

theorem CheckScope.Within.covers {s t : CheckScope} (h : s.Within t) (e : Entry)
    (hs : s.covers e = true) : t.covers e = true := by
  have hfuzzy := h.fuzzy
  have hunchecked := h.unchecked
  have hobsolete := h.obsolete
  simp only [CheckScope.covers, Bool.and_eq_true, Bool.or_eq_true] at hs ⊢
  tauto

theorem Catalog.check_sublist (c : Catalog) {s t : CheckScope} (h : s.Within t) :
    (c.check path rules s).Sublist (c.check path rules t) :=
  (List.monotone_filter_right c.entries h.covers).flatMap _

namespace Checker

/-- Of a run with several rules, the diagnostics of one rule are those of a run with this rule
alone, wherever it stands among the others. A run in a wider scope reports all that a run in a
narrower one does, in the same order. -/
theorem diagnose_independent [Charsets] (path : String) (data : List UInt8) (scope : CheckScope)
    (hrules : rules.Nodup) :
    (∀ r, (diagnose path rules scope data).filter (fun d => d.rule = r.name) =
      if r ∈ rules then diagnose path [r] scope data else []) ∧
    ∀ wider, scope.Within wider →
      (diagnose path rules scope data).Sublist (diagnose path rules wider data) := by
  refine ⟨fun r => ?_, fun wider h => ?_⟩
  · have halone : rules.filter (· = r) = if r ∈ rules then [r] else [] := by
      rw [List.filter_eq, hrules.count]
      split <;> rfl
    simp only [diagnose_eq]
    rw [Catalog.filter_check, halone]
    split
    · rfl
    · exact List.flatMap_eq_nil_iff.mpr fun e _ => rfl
  · simp only [diagnose_eq]
    exact Catalog.check_sublist _ h

/-- Both rules object to the first entry, and the second one is fuzzy. -/
theorem diagnose_independent_fuzzy :
    let data := ("#, d-format\nmsgid \"100% sure\"\nmsgstr \"sûr\"\n\n" ++
      "#, fuzzy, d-format\nmsgid \"%s\"\nmsgstr \"%d\"\n").toUTF8.toList
    let rules : List Rule := [.formats, .unlikelyFormat]
    let narrow : CheckScope := ⟨false, false, false⟩
    let wide : CheckScope := ⟨true, false, false⟩
    rules.Nodup ∧ narrow.Within wide ∧
      (diagnose "de.po" rules narrow data).map Diagnostic.rule =
        ["d-formats", "d-format-unlikely"] ∧
      (diagnose "de.po" rules wide data).map Diagnostic.rule =
        ["d-formats", "d-format-unlikely", "d-formats"] ∧
      (diagnose "de.po" rules narrow data).filter (fun d => d.rule = Rule.formats.name) =
        diagnose "de.po" [.formats] narrow data ∧
      (diagnose "de.po" rules narrow data).Sublist (diagnose "de.po" rules wide data) := by
  intro data rules narrow wide
  have hrules : rules.Nodup := by decide
  have hwide : narrow.Within wide := ⟨by decide, by decide, by decide⟩
  obtain ⟨halone, hsublist⟩ := diagnose_independent "de.po" data narrow hrules
  refine ⟨hrules, hwide, ?_, ?_, halone .formats, hsublist wide hwide⟩
  · rw [diagnose_eq]
    decide +kernel
  · rw [diagnose_eq]
    decide +kernel

end Checker

end CatalogLint
