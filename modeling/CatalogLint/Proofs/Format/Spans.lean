import CatalogLint.Proofs.Format.Marking

/-!
# The outermost directives of an accepted string

The directives that are found again from the marks are those that were written
(`FormatString.spans_of_ok`): one piece for each outermost directive, from its `%` up to the end of
its specifier or of its closing, with plain text between them.
-/
namespace CatalogLint

namespace Wording

/-- The pieces of a wording are where its directives are. -/
theorem text_spans (w : Wording) (front : List Char) :
    (w.spans (Text.byteLength front)).map (Span.text (front ++ w.chars)) = w.pieces := by
  induction w generalizing front with
  | done => rfl
  | text c rest ih =>
      have hrest := ih (front ++ escape c)
      rw [Text.byteLength_append, List.append_assoc] at hrest
      exact hrest
  | value o s rest ih =>
      have hrest := ih (front ++ o.before s.letter)
      rw [Text.byteLength_append, List.append_assoc] at hrest
      rw [chars_value, spans, List.map_cons, Span.text_append, hrest, pieces]
  | compound o body closing rest _ ih =>
      have hrest := ih (front ++ compoundText o body closing)
      rw [Text.byteLength_append, List.append_assoc] at hrest
      rw [chars_compound, spans, List.map_cons, Span.text_append, hrest, pieces]

/-- Outside its directives a wording is plain text, where `%` is doubled. -/
theorem outside_spans (w : Wording) (front plain : List Char) :
    ∀ t ∈ Span.outside (front ++ (plain.flatMap escape ++ w.chars)) (Text.byteLength front)
        (w.spans (Text.byteLength front + Text.byteLength (plain.flatMap escape))),
      ∃ plain : List Char, t = plain.flatMap escape := by
  induction w generalizing front plain with
  | done =>
      rw [chars, List.append_nil, spans, Span.outside_nil, List.forall_mem_singleton]
      exact ⟨plain, rfl⟩
  | text c rest ih =>
      have hrest := ih front (plain ++ [c])
      simp only [List.flatMap_append, List.flatMap_singleton, Text.byteLength_append,
        List.append_assoc, ← Nat.add_assoc] at hrest
      exact hrest
  | value o s rest ih =>
      have hrest := ih (front ++ (plain.flatMap escape ++ o.before s.letter)) []
      simp only [Text.byteLength_append, List.append_assoc, ← Nat.add_assoc] at hrest
      rw [chars_value, spans, Span.outside_cons, List.forall_mem_cons]
      exact ⟨⟨plain, rfl⟩, hrest⟩
  | compound o body closing rest _ ih =>
      have hrest := ih (front ++ (plain.flatMap escape ++ compoundText o body closing)) []
      simp only [Text.byteLength_append, List.append_assoc, ← Nat.add_assoc] at hrest
      rw [chars_compound, spans, Span.outside_cons, List.forall_mem_cons]
      exact ⟨⟨plain, rfl⟩, hrest⟩

theorem length_spans (w : Wording) (n : ℕ) : (w.spans n).length = w.pieces.length := by
  induction w generalizing n with
  | done => rfl
  | text c rest ih => exact ih _
  | value o s rest ih => exact congrArg Nat.succ (ih _)
  | compound o body closing rest _ ih => exact congrArg Nat.succ (ih _)

theorem fault_notMem_marks (w : Wording) (n k : ℕ) : .fault k ∉ w.marks n := by
  induction w generalizing n with
  | done => exact List.not_mem_nil
  | text c rest ih => exact ih _
  | value o s rest ih => simp [marks, ih]
  | compound o body closing rest ihbody ih => simp [marks, ihbody, ih]

end Wording

namespace FormatString
variable {s : String} {spec : FormatSpec}

/-- The marks on an accepted string show its outermost directives as they are written, and plain
text between them. -/
theorem spans_of_ok (h : (parse s).result = .ok spec) :
    (parse s).spans.length = spec.directives ∧
    ((parse s).spans.Pairwise fun a b => a.stop ≤ b.start) ∧
    (∀ a ∈ (parse s).spans, a.start < a.stop ∧ Text.isBoundary s.toList a.start = true ∧
      Text.isBoundary s.toList a.stop = true) ∧
    (∀ n, (parse s).faultyAt n = false) ∧
    (∃ w : Wording, s.toList = w.chars) ∧
    (∀ w : Wording, s.toList = w.chars → (parse s).spans = w.spans 0 ∧
      (parse s).spans.map (Span.text s.toList) = w.pieces) ∧
    ∀ t ∈ Span.outside s.toList 0 (parse s).spans, ∃ plain : List Char,
      t = plain.flatMap escape := by
  obtain ⟨v, hv, -⟩ := exists_wording h
  have hmarked : ∀ w : Wording, s.toList = w.chars → (parse s).spans = w.spans 0 := by
    intro w hw
    have hshown := (Span.shown_wording s.toList [] w (Nat.le_refl 0)
      (by rw [hw, Nat.zero_add]) nofun).2
    rwa [List.append_nil, Span.shown_nil, List.append_nil, ← (marks_eq hw h).1, ← spans_eq]
      at hshown
  have hpieces : ∀ w : Wording, s.toList = w.chars →
      (parse s).spans.map (Span.text s.toList) = w.pieces := by
    intro w hw
    rw [hmarked w hw, hw]
    exact w.text_spans []
  have hfaulty : ∀ n, (parse s).faultyAt n = false := by
    intro n
    rw [Bool.eq_false_iff, ne_eq, faultyAt_iff, (marks_eq hv h).1]
    exact v.fault_notMem_marks 0 n
  have horder := inOrder_spans s
  refine ⟨?_, horder.pairwise, fun a ha => (horder.forall_mem a ha).2, hfaulty, ⟨v, hv⟩,
    fun w hw => ⟨hmarked w hw, hpieces w hw⟩, ?_⟩
  · rw [hmarked v hv, v.length_spans, (marks_eq hv h).2]
  · rw [hmarked v hv, hv]
    exact v.outside_spans [] []

/-- A compound directive with a delimiter is one piece, with the directive inside it. -/
theorem spans_of_ok_delimiter :
    let s := "é: %(%s%|%%, %) of %-3d%%"
    let strings : Shape := .compound .sequences [⟨1, .required, .plain .any⟩] []
    let numbers : Shape := .plain (.ofList [.bool, .integer, .char])
    let spec : FormatSpec := ⟨2, 2, .finite [⟨1, .required, strings⟩, ⟨1, .required, numbers⟩]⟩
    (parse s).result = .ok spec ∧ (parse s).spans.length = spec.directives ∧
      (parse s).spans.map (Span.text s.toList) = ["%(%s%|%%, %)".toList, "%-3d".toList] ∧
      ∀ t ∈ Span.outside s.toList 0 (parse s).spans, ∃ plain : List Char,
        t = plain.flatMap escape := by
  intro s strings numbers spec
  have hparse : (parse s).result = .ok spec := by decide +kernel
  obtain ⟨hlength, -, -, -, -, -, houtside⟩ := spans_of_ok hparse
  exact ⟨hparse, hlength, by decide +kernel, houtside⟩

end FormatString

end CatalogLint
