import CatalogLint.Proofs.ArgList.Comparison
import CatalogLint.Proofs.Format.Recovery

/-!
# The lists of format strings

The list of an accepted string is settled, in normal form, and requires its arguments up to some
place (`FormatString.reduced`), since it says what references do. This is all that comparing two
such lists asks for.
-/
namespace CatalogLint
namespace FormatString

variable {spec : FormatSpec}

theorem reduced {s : String} (h : (parse s).result = .ok spec) :
    ∃ n, spec.arguments.Reduced n := by
  obtain ⟨us, l, hl, harguments⟩ := exists_built h
  rw [harguments]
  exact ⟨_, hl.requires.reduced hl.settled⟩

/-- Two accepted strings are found to agree exactly when they accept the same arguments, whether
that is asked of the lists or of the strings, with either flag; and the comparison for a subset
succeeds exactly when the first string accepts whatever the second one does. -/
theorem check_exact {s t : String} {f g : FormatSpec} (hs : (parse s).result = .ok f)
    (ht : (parse t).result = .ok g) (labels : Labels) :
    (f.arguments.compare .equivalent labels g.arguments = none ↔
      ∀ xs, f.arguments.Accepts xs ↔ g.arguments.Accepts xs) ∧
    (∀ equality, check labels f g equality = none ↔
      ∀ xs, f.arguments.Accepts xs ↔ g.arguments.Accepts xs) ∧
    (f.arguments.compare .subset labels g.arguments = none ↔
      ∀ xs, g.arguments.Accepts xs → f.arguments.Accepts xs) := by
  obtain ⟨m, hf⟩ := reduced hs
  obtain ⟨n, hg⟩ := reduced ht
  have hequivalent : f.arguments.compare .equivalent labels g.arguments = none ↔
      ∀ xs, f.arguments.Accepts xs ↔ g.arguments.Accepts xs := by
    rw [ArgList.compare_eq_none, ArgList.agrees_equivalent hf hg]
  refine ⟨hequivalent, fun equality => ?_, ?_⟩
  · have hstrict : (equality || strictTrailing) = true := by simp [strictTrailing]
    rw [check, hstrict]
    exact hequivalent
  · rw [ArgList.compare_eq_none, ArgList.agrees_subset hf hg]

/-- A table whose values are characters, for a message that takes any value. -/
theorem check_exact_tables :
    let pair : List Run := [⟨1, .required, .any⟩, ⟨1, .required, .plain (.ofList [.char])⟩]
    let f : FormatSpec := ⟨1, 1, .finite [⟨1, .required, .any⟩]⟩
    let g : FormatSpec := ⟨1, 1, .finite [⟨1, .required, .compound .tables pair []⟩]⟩
    (parse "%s").result = .ok f ∧ (parse "%(%2$c: %1$s%|, %)").result = .ok g ∧
      (f.arguments.compare .subset ⟨"msgid", "msgstr"⟩ g.arguments = none ↔
        ∀ xs, g.arguments.Accepts xs → f.arguments.Accepts xs) := by
  intro pair f g
  have hf : (parse "%s").result = .ok f := by decide +kernel
  have hg : (parse "%(%2$c: %1$s%|, %)").result = .ok g := by decide +kernel
  exact ⟨hf, hg, (check_exact hf hg _).2.2⟩

end FormatString

end CatalogLint
