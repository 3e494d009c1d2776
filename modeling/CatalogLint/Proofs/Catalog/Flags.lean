import CatalogLint.Proofs.Catalog.Keyword

/-!
# Flags of an entry

All lines of flags in a run count together, in whatever order they and the other lines stand. The
flag `noqa` has its effect wherever it is found, and of the lists of rules only the last one has
(`Reader.unchecked_entryOf`, `Reader.uncheckedRules_entryOf`).
-/
namespace CatalogLint.Reader

/-- The flags of a line; there are none unless it is a line of flags. -/
def lineFlags (line : List UInt8) : List (List Char) :=
  match Text.dropStart? (ascii "#,") line with
  | some flags => (Text.splitOn ',' (Text.ofBytes flags)).map Text.trim
  | none => []

/-- The flags in a run of lines, in their order. -/
def flagsOf (run : List (ℕ × List UInt8)) : List (List Char) :=
  run.flatMap fun line => lineFlags line.2

/-- The rules that a flag names, if it is a list of rules that are not to be checked. -/
def ruleNames? (flag : List Char) : Option (List String) :=
  (Text.dropStart? "noqa:".toList flag).map fun rules =>
    (((Text.splitOn ';' rules).map Text.trim).filter (!·.isEmpty)).map String.ofList

/-- The lists of rules in a run of lines. -/
def ruleLists (run : List (ℕ × List UInt8)) : List (List String) :=
  (flagsOf run).filterMap ruleNames?

variable (e : Entry) (flag : List Char) (flags : List (List Char))

theorem unchecked_mark (m : FormatFlag) : (e.mark m).unchecked = e.unchecked ∧
    (e.mark m).uncheckedRules = e.uncheckedRules := by
  unfold Entry.mark
  split
  · exact ⟨rfl, rfl⟩
  · split <;> exact ⟨rfl, rfl⟩
  · split <;> exact ⟨rfl, rfl⟩
  · exact ⟨rfl, rfl⟩

/-- The effect of a flag on what is checked. -/
theorem unchecked_applyFlag :
    (applyFlag e flag).unchecked = (e.unchecked || decide (flag = "noqa".toList)) ∧
      (applyFlag e flag).uncheckedRules = (ruleNames? flag).getD e.uncheckedRules := by
  unfold applyFlag
  by_cases hfuzzy : flag = "fuzzy".toList
  · subst hfuzzy
    exact ⟨by simp, rfl⟩
  by_cases hnoqa : flag = "noqa".toList
  · subst hnoqa
    exact ⟨by simp, rfl⟩
  rw [if_neg hfuzzy, if_neg hnoqa, decide_eq_false hnoqa, Bool.or_false, ruleNames?]
  cases Text.dropStart? "noqa:".toList flag with
  | some rules => exact ⟨rfl, rfl⟩
  | none =>
      cases FormatFlag.ofText? flag with
      | some m => exact unchecked_mark e m
      | none => exact ⟨rfl, rfl⟩

/-- The flag `noqa` counts wherever it is, and a list of rules until the next one. -/
theorem unchecked_foldl_applyFlag :
    (flags.foldl applyFlag e).unchecked = (e.unchecked || decide ("noqa".toList ∈ flags)) ∧
      (flags.foldl applyFlag e).uncheckedRules =
        (flags.filterMap ruleNames?).getLast?.getD e.uncheckedRules := by
  induction flags using List.reverseRecOn with
  | nil => simp
  | append_singleton flags flag ih =>
      obtain ⟨hunchecked, hrules⟩ := ih
      obtain ⟨hunchecked', hrules'⟩ := unchecked_applyFlag (flags.foldl applyFlag e) flag
      rw [List.foldl_append, List.foldl_cons, List.foldl_nil, hunchecked', hrules', hunchecked,
        hrules, List.filterMap_append]
      constructor
      · simp [Bool.or_assoc, eq_comm]
      · cases h : ruleNames? flag <;> simp [h]

variable [Charsets] (set : Option Charset) (d : Draft) (n : ℕ) (line : List UInt8)

theorem withFlagsOf_readMessage :
    e.withFlagsOf (d.readMessage set n line).entry = e.withFlagsOf d.entry := by
  rw [Draft.readMessage]
  split
  · cases d with | mk f current => cases current <;> rfl
  · split
    · rfl
    · rename_i changed _
      cases changed <;> rfl

/-- Only a line of flags changes flags. -/
theorem withFlagsOf_readLine : e.withFlagsOf (d.readLine set n line).entry =
    e.withFlagsOf ((lineFlags line).foldl applyFlag d.entry) := by
  rw [Draft.readLine, lineFlags]
  cases Text.dropStart? (ascii "#,") line with
  | some flags => rfl
  | none =>
      cases Text.dropStart? (ascii "#~ ") line with
      | some rest => exact withFlagsOf_readMessage ..
      | none =>
          dsimp only
          split
          · exact withFlagsOf_readMessage ..
          · rfl

variable (run : List (ℕ × List UInt8))

theorem withFlagsOf_entryOf : e.withFlagsOf (entryOf set run) =
    (flagsOf run).foldl applyFlag (e.withFlagsOf (.atLine 0)) := by
  have hread (first : ℕ) : e.withFlagsOf
      (run.foldl (fun d line => d.readLine set line.1 line.2) (Draft.start first)).entry =
        (flagsOf run).foldl applyFlag (e.withFlagsOf (.atLine 0)) := by
    induction run using List.reverseRecOn with
    | nil => rfl
    | append_singleton run line ih =>
        rw [List.foldl_append, List.foldl_cons, List.foldl_nil, withFlagsOf_readLine,
          ← foldl_applyFlag_withFlagsOf, ih, flagsOf, flagsOf, List.flatMap_append,
          List.flatMap_singleton, List.foldl_append]
  exact hread _

/-- An entry is not to be checked at all if the flag is anywhere among its lines. -/
theorem unchecked_entryOf :
    (entryOf set run).unchecked = decide ("noqa".toList ∈ flagsOf run) := by
  have h := congrArg Entry.unchecked (withFlagsOf_entryOf (.atLine 0) set run)
  rw [(unchecked_foldl_applyFlag _ _).1] at h
  exact h

/-- The rules that are not to be checked on an entry are those of the last list among its lines. -/
theorem uncheckedRules_entryOf :
    (entryOf set run).uncheckedRules = (ruleLists run).getLast?.getD [] := by
  have h := congrArg Entry.uncheckedRules (withFlagsOf_entryOf (.atLine 0) set run)
  rw [(unchecked_foldl_applyFlag _ _).2] at h
  exact h

end CatalogLint.Reader
