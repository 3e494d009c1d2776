import CatalogLint.Charset.Known
import CatalogLint.Proofs.Lint.Checker
import CatalogLint.Proofs.Text.Split

/-!
# What the strings of a diagnostic are called

A diagnostic about formats shows a translation and what it was compared with, and its message calls
both by their labels. These are the keywords of the strings where the entry has a plural, and for
the first translation (`Checker.diagnose_labels`). A later translation of an entry without a plural
is compared with the message, which is called `msgid_plural` then, and all translations of such an
entry have the same label (`Checker.not_labels_named`).
-/
namespace CatalogLint

/-- The labels are the keywords of a translation and of what it is compared with. -/
structure Labels.Name (labels : Labels) (e : Entry) (index : ℕ) (source : Message) : Prop where
  message : labels.message = "msgid" ∧ e.message = some source ∨
    labels.message = "msgid_plural" ∧ e.plural = some source
  translation : labels.translation =
    if e.hasPlural = true ∨ 0 < index then s!"msgstr[{index}]" else "msgstr"

/-- What is said of formats, of strings with these labels. -/
inductive Rule.Complains (labels : Labels) : String → Prop
  | refused (language : Language) (fault : Fault) :
      Complains labels (s!"'{labels.translation}' is not a valid {language.name} format " ++
        s!"string, unlike '{labels.message}'. Reason: {fault.message}")
  | different (detail : Option Discrepancy) :
      Complains labels (s!"format specifications in '{labels.message}' and " ++
        s!"'{labels.translation}' are not equivalent" ++
        detail.elim "" fun d => s!" ({d.text labels})")

variable {e : Entry} {labels : Labels} {index : ℕ} {source translation : Message}
  {d : Diagnostic} {path : String} {rules : List Rule} {scope : CheckScope} {data : List UInt8}

theorem Agreement.complaint_equivalent (labels : Labels) : complaint labels .equivalent =
    s!"format specifications in '{labels.message}' and " ++
      s!"'{labels.translation}' are not equivalent" := by
  have hfirst : "format specifications in '" = "format specifications in " ++ "'" := by decide
  have hmiddle : "' and '" = "' and " ++ "'" := by decide
  have hlast : "' are not equivalent" = "'" ++ " are not equivalent" := by decide
  change "format specifications in " ++ ("'" ++ labels.message ++ "' and '" ++
      labels.translation ++ "'") ++ " are not equivalent" =
    "format specifications in '" ++ labels.message ++ "' and " ++
      ("'" ++ labels.translation ++ "' are not equivalent")
  rw [hfirst, hmiddle, hlast]
  simp only [String.append_assoc]

theorem ArgList.complains_of_compare {a b : ArgList} {complaint : String}
    (h : a.compare .equivalent labels b = some complaint) : Rule.Complains labels complaint := by
  have hdetail : ∀ detail : Option Discrepancy, Rule.Complains labels
      (Agreement.complaint labels .equivalent ++
        detail.elim "" fun d => s!" ({d.text labels})") := by
    intro detail
    rw [Agreement.complaint_equivalent]
    exact .different detail
  rw [compare] at h
  split at h
  · cases h
  · cases hd : firstDiscrepancy a b with
    | none =>
        rw [hd] at h
        cases h
        have := hdetail none
        rwa [Option.elim_none, String.append_empty] at this
    | some d =>
        rw [hd] at h
        cases h
        have := hdetail (some d)
        rw [Option.elim_some, ← String.append_assoc, ← String.append_assoc] at this
        exact this

/-- How such a text begins. -/
theorem Rule.Complains.start {m : String} (h : Complains labels m) :
    ("'" ++ labels.translation).toList <+: m.toList ∨
      s!"format specifications in '{labels.message}' and ".toList <+: m.toList := by
  cases h with
  | refused language fault =>
      left
      simp only [toString, String.toList_append, List.append_assoc]
      exact ⟨_, List.append_assoc _ _ _⟩
  | different detail =>
      right
      simp only [String.toList_append, List.append_assoc]
      exact ⟨_, by simp only [List.append_assoc]; rfl⟩

/-- What is said of the formats of two strings calls them by their labels. -/
theorem Rule.complains_of_compareFormats {mark : FormatMark} {s t : String} {f : Finding}
    (h : compareFormats mark labels s t = some f) : Complains labels f.message := by
  simp only [compareFormats] at h
  cases hs : (FormatString.parse s).result with
  | error fault =>
      simp only [hs] at h
      cases h
  | ok g =>
      simp only [hs] at h
      split_ifs at h
      cases ht : (FormatString.parse t).result with
      | error fault =>
          simp only [ht] at h
          cases h
          exact .refused mark.language fault
      | ok g' =>
          simp only [ht] at h
          obtain ⟨complaint, hcheck, rfl⟩ := Option.map_eq_some_iff.mp h
          exact ArgList.complains_of_compare hcheck

theorem Entry.mem_pairs : (index, source, translation) ∈ e.pairs ↔
    (index, translation) ∈ e.translations ∧ e.source? index = some source := by
  rw [pairs, List.mem_filterMap]
  constructor
  · rintro ⟨⟨i, m⟩, hm, hpair⟩
    obtain ⟨s, hs, hpair⟩ := Option.map_eq_some_iff.mp hpair
    cases hpair
    exact ⟨hm, hs⟩
  · rintro ⟨hm, hs⟩
    exact ⟨(index, translation), hm, by simp only [hs, Option.map_some]⟩

theorem indexed_inj {i j : ℕ} : s!"msgstr[{i}]" = s!"msgstr[{j}]" ↔ i = j := by
  refine ⟨fun h => ?_, fun h => by rw [h]⟩
  change "msgstr[" ++ i.repr ++ "]" = "msgstr[" ++ j.repr ++ "]" at h
  rw [String.append_left_inj, String.append_right_inj] at h
  have hdigits := congrArg String.toList h
  rw [Nat.toList_repr, Nat.toList_repr] at hdigits
  exact toDigits_injective hdigits

theorem indexed_ne (i : ℕ) : s!"msgstr[{i}]" ≠ "msgstr" := by
  intro h
  change "msgstr[" ++ i.repr ++ "]" = "msgstr" at h
  have hlength := congrArg String.length h
  have hlonger : "msgstr".length < "msgstr[".length := by decide
  rw [String.length_append, String.length_append] at hlength
  omega

theorem message_pairLabels (e : Entry) (index : ℕ) :
    (pairLabels e index).message = if index = 0 then "msgid" else "msgid_plural" := rfl

theorem translation_pairLabels (e : Entry) (index : ℕ) : (pairLabels e index).translation =
    if e.hasPlural then s!"msgstr[{index}]" else "msgstr" := rfl

/-- The labels of a pair are the keywords just where the entry has a plural, and for the first
translation. -/
theorem name_pairLabels (hsource : e.source? index = some source) :
    (pairLabels e index).Name e index source ↔ e.hasPlural = true ∨ index = 0 := by
  constructor
  · rintro ⟨-, htranslation⟩
    by_contra hneither
    obtain ⟨hplural, hindex⟩ := not_or.mp hneither
    have hlater : e.hasPlural = true ∨ 0 < index := .inr (Nat.pos_of_ne_zero hindex)
    rw [translation_pairLabels, if_neg hplural, if_pos hlater] at htranslation
    exact indexed_ne index htranslation.symm
  · intro h
    by_cases hindex : index = 0
    · subst hindex
      rw [Entry.source?, if_pos rfl] at hsource
      refine ⟨.inl ⟨message_pairLabels e 0, hsource⟩, ?_⟩
      simp only [translation_pairLabels, Nat.lt_irrefl, or_false]
    · have hplural := h.resolve_right hindex
      obtain ⟨plural, hp⟩ := Option.isSome_iff_exists.mp hplural
      rw [Entry.source?, if_neg hindex, hp, Option.some_or] at hsource
      refine ⟨.inr ⟨by rw [message_pairLabels, if_neg hindex], hp.trans hsource⟩, ?_⟩
      simp only [translation_pairLabels, hplural, if_true, true_or]

/-- Where there is no plural, a translation that is not the first one is compared with the message,
but called as the first one is and the message as a plural. -/
theorem pairLabels_of_not_plural (hsource : e.source? index = some source)
    (hplural : e.hasPlural = false) (hindex : 0 < index) :
    e.message = some source ∧ pairLabels e index = ⟨"msgid_plural", "msgstr"⟩ := by
  have hnone : e.plural = none := by
    cases hp : e.plural with
    | none => rfl
    | some plural => simp [Entry.hasPlural, hp] at hplural
  have hne : index ≠ 0 := Nat.ne_of_gt hindex
  rw [Entry.source?, if_neg hne, hnone, Option.none_or] at hsource
  exact ⟨hsource, by simp only [pairLabels, hplural, if_neg hne, reduceCtorEq, if_false]⟩

theorem translation_pairLabels_inj {j : ℕ} :
    (pairLabels e index).translation = (pairLabels e j).translation ↔
      e.hasPlural = false ∨ index = j := by
  rw [translation_pairLabels, translation_pairLabels]
  cases e.hasPlural with
  | true => simp only [if_true, indexed_inj, reduceCtorEq, false_or]
  | false => simp only [reduceCtorEq, if_false, true_or]

namespace Checker

/-- A diagnostic about formats shows a translation of an entry behind what it was compared with,
and speaks of them by their labels. These are the keywords just where the entry has a plural, and
for the first translation; a later translation of an entry without a plural is compared with the
message, which is called as a plural, and no translation of such an entry is told from another. -/
theorem diagnose_labels [Charsets] (path : String) (rules : List Rule) (scope : CheckScope)
    (data : List UInt8) (hd : d ∈ diagnose path rules scope data) (hrule : d.rule = "d-formats") :
    ∃ e ∈ (Catalog.read data).entries, ∃ index source translation,
      (index, translation) ∈ e.translations ∧ e.source? index = some source ∧
      (∃ there here, d.lines =
        [⟨source.line, source.text, there⟩, ⟨0, "", []⟩,
          ⟨translation.line, translation.text, here⟩]) ∧
      Rule.Complains (pairLabels e index) d.message ∧
      ((pairLabels e index).Name e index source ↔ e.hasPlural = true ∨ index = 0) ∧
      (e.hasPlural = false → 0 < index →
        e.message = some source ∧ pairLabels e index = ⟨"msgid_plural", "msgstr"⟩) ∧
      ∀ j, (pairLabels e index).translation = (pairLabels e j).translation ↔
        e.hasPlural = false ∨ index = j := by
  rw [diagnose_eq, Catalog.check] at hd
  obtain ⟨e, he, hd⟩ := List.mem_flatMap.mp hd
  obtain ⟨r, -, -, index, source, translation, hpair, hd⟩ := exists_pair hd
  obtain ⟨hm, hs⟩ := Entry.mem_pairs.mp hpair
  obtain ⟨f, hf, rfl⟩ := exists_finding hd
  obtain ⟨mark, -, hf⟩ := Option.bind_eq_some_iff.mp hf
  cases r with
  | formats =>
      exact ⟨e, List.mem_of_mem_filter he, index, source, translation, hm, hs,
        ⟨f.source, f.translation, rfl⟩, Rule.complains_of_compareFormats hf, name_pairLabels hs,
        pairLabels_of_not_plural hs, fun _ => translation_pairLabels_inj⟩
  | unlikelyFormat => exact absurd hrule (by decide : Rule.unlikelyFormat.name ≠ "d-formats")

/-- One of two translations of an entry with a plural is reported. -/
theorem diagnose_labels_plural :
    let data := ("#, d-format\nmsgid \"%s\"\nmsgid_plural \"%s and %s\"\n" ++
      "msgstr[0] \"%s\"\nmsgstr[2] \"%d\"\n").toUTF8.toList
    ∃ d, diagnose "fr.po" [.formats] ⟨false, false, false⟩ data = [d] ∧ d.rule = "d-formats" ∧
      ∃ e ∈ (Catalog.read data).entries, ∃ index source,
        Rule.Complains (pairLabels e index) d.message ∧
        (pairLabels e index).Name e index source := by
  intro data
  have hrules : (diagnose "fr.po" [.formats] ⟨false, false, false⟩ data).map Diagnostic.rule =
      ["d-formats"] := by
    rw [diagnose_eq]
    decide +kernel
  have hplural : ∀ e ∈ (Catalog.read data).entries, e.hasPlural = true := by
    decide +kernel
  obtain ⟨d, hd, hrule⟩ := List.map_eq_singleton_iff.mp hrules
  have hmem : d ∈ diagnose "fr.po" [.formats] ⟨false, false, false⟩ data := by
    rw [hd]
    exact List.mem_singleton_self d
  obtain ⟨e, he, index, source, -, -, -, -, hcomplains, hname, -⟩ :=
    diagnose_labels "fr.po" [.formats] ⟨false, false, false⟩ data hmem hrule
  exact ⟨d, hd, hrule, e, he, index, source, hcomplains, hname.mpr (.inl (hplural e he))⟩

/-- The second translation of an entry without a plural is compared with the message. The diagnostic
speaks of neither of them by its keyword. -/
theorem not_labels_named :
    let data := "#, d-format\nmsgid \"%s\"\nmsgstr \"%d\"\nmsgstr[1] \"%d\"\n".toUTF8.toList
    ∃ d ∈ diagnose "fr.po" [.formats] ⟨false, false, false⟩ data, d.rule = "d-formats" ∧
      ∀ e ∈ (Catalog.read data).entries, ∀ index source translation,
        (index, translation) ∈ e.translations →
        (∃ there here, d.lines =
          [⟨source.line, source.text, there⟩, ⟨0, "", []⟩,
            ⟨translation.line, translation.text, here⟩]) →
        ∀ labels, Rule.Complains labels d.message → ¬ labels.Name e index source := by
  intro data
  have hmessages : ("d-formats", "format specifications in 'msgid_plural' and 'msgstr' are not " ++
      "equivalent (argument 1 is any type in 'msgid_plural' but bool|integer|char in 'msgstr')",
      [2, 0, 4]) ∈
      (diagnose "fr.po" [.formats] ⟨false, false, false⟩ data).map fun d =>
        (d.rule, d.message, d.lines.map DiagnosticLine.number) := by
    rw [diagnose_eq]
    decide +kernel
  have hentries : ∀ e ∈ (Catalog.read data).entries, e.plural = none ∧
      ∀ t ∈ e.translations, t.2.line = 4 → t.1 = 1 := by
    decide +kernel
  obtain ⟨d, hd, heq⟩ := List.mem_map.mp hmessages
  simp only [Prod.mk.injEq] at heq
  obtain ⟨hrule, hmessage, hlines⟩ := heq
  refine ⟨d, hd, hrule, ?_⟩
  rintro e he index source translation hm ⟨there, here, hshown⟩ labels hcomplains hname
  obtain ⟨hplural, hindex⟩ := hentries e he
  -- The translation is the second one, and what it is compared with can only be the message.
  have hline : translation.line = 4 := by
    rw [hshown] at hlines
    simp only [List.map_cons, List.map_nil, List.cons.injEq, and_true, true_and] at hlines
    exact hlines.2
  obtain rfl : index = 1 := hindex _ hm hline
  have hm : labels.message = "msgid" := by
    rcases hname.message with h | h
    · exact h.1
    · rw [hplural] at h
      cases h.2
  have ht : labels.translation = "msgstr[1]" := by
    rw [hname.translation, if_pos (.inr Nat.zero_lt_one)]
    rfl
  obtain ⟨message, translation⟩ := labels
  subst hm ht
  have hstart := hcomplains.start
  rw [hmessage] at hstart
  revert hstart
  decide +kernel

end Checker

end CatalogLint
