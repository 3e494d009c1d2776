import CatalogLint.Charset.Known
import CatalogLint.Lint.Check
import CatalogLint.Proofs.Format.Marking
import CatalogLint.Proofs.Lint.Painting

/-!
# Highlights

What a diagnostic highlights in a line are pieces of the line in their order, for every catalog and
every rule (`Catalog.inOrder_check`). Hence a display paints all of them and a record counts all of
them in characters.
-/
namespace CatalogLint

variable {cs : List Char} {spans : List Span} {a : Span} {n : ℕ}

namespace Span

theorem IsCharacter.inOrder (h : a.IsCharacter cs n) : InOrder cs 0 [a] := by
  obtain ⟨front, c, rest, rfl, rfl, hle, hlt⟩ := h
  have hend := Text.isBoundary_append (front ++ [c]) rest
  rw [List.append_assoc, Text.byteLength_append] at hend
  exact ⟨Nat.zero_le _, hle.trans_lt hlt, Text.isBoundary_append front (c :: rest), hend, trivial⟩

end Span

theorem FormatString.inOrder_faultSpan (s : String) :
    Span.InOrder s.toList 0 (parse s).faultSpan?.toList := by
  cases hfind : (parse s).indicators.findIdx? Indicator.faulty with
  | none =>
      rw [faultSpan?, Span.faultSpan?, hfind]
      trivial
  | some n =>
      obtain ⟨a, ha, hspan⟩ := exists_faultSpan hfind
      rw [hspan]
      exact ha.inOrder

/-! ### What is highlighted -/

/-- The highlights of a finding are pieces of the strings that it is about. -/
def Finding.InOrder (f : Finding) (source translation : String) : Prop :=
  Span.InOrder source.toList 0 f.source ∧ Span.InOrder translation.toList 0 f.translation

namespace Rule
variable {mark : FormatMark} {labels : Labels} {source translation : String} {f : Finding}

theorem inOrder_compareFormats
    (h : compareFormats mark labels source translation = some f) :
    f.InOrder source translation := by
  have hsource := FormatString.inOrder_spans source
  have htranslation := FormatString.inOrder_spans translation
  simp only [compareFormats] at h
  cases hs : (FormatString.parse source).result with
  | error fault =>
      simp only [hs] at h
      cases h
  | ok g =>
      simp only [hs] at h
      split_ifs at h
      -- A translation that is refused is highlighted where its fault shows.
      cases ht : (FormatString.parse translation).result with
      | error fault =>
          simp only [ht] at h
          cases h
          exact ⟨hsource, FormatString.inOrder_faultSpan translation⟩
      | ok g' =>
          simp only [ht] at h
          obtain ⟨complaint, -, rfl⟩ := Option.map_eq_some_iff.mp h
          exact ⟨hsource, htranslation⟩

theorem inOrder_findUnlikely
    (h : findUnlikely mark labels n source translation = some f) :
    f.InOrder source translation := by
  simp only [findUnlikely] at h
  split_ifs at h
  cases hs : (FormatString.parse source).result with
  | error fault =>
      simp only [hs] at h
      cases h
  | ok g =>
      simp only [hs] at h
      split_ifs at h
      cases h
      exact ⟨FormatString.inOrder_spans source, FormatString.inOrder_spans translation⟩

theorem inOrder_inspect {r : Rule} {e : Entry}
    (h : r.inspect e n source translation = some f) : f.InOrder source translation := by
  obtain ⟨mark, -, h⟩ := Option.bind_eq_some_iff.mp h
  cases r with
  | unlikelyFormat => exact inOrder_findUnlikely h
  | formats => exact inOrder_compareFormats h

end Rule

theorem inOrder_checkPair {path : String} {r : Rule} {e : Entry} {p : ℕ × Message × Message}
    {d : Diagnostic} (h : checkPair path r e p = some d) :
    ∀ l ∈ d.lines, Span.InOrder l.text.toList 0 l.highlights := by
  obtain ⟨index, source, translation⟩ := p
  obtain ⟨f, hf, rfl⟩ := exists_finding h
  obtain ⟨hsource, htranslation⟩ := Rule.inOrder_inspect hf
  simp only [List.forall_mem_cons]
  exact ⟨hsource, trivial, htranslation, nofun⟩

/-- Every line of a diagnostic is highlighted in order. -/
theorem Catalog.inOrder_check {c : Catalog} {path : String} {rules : List Rule}
    {scope : CheckScope} {d : Diagnostic} (hd : d ∈ c.check path rules scope) :
    ∀ l ∈ d.lines, Span.InOrder l.text.toList 0 l.highlights := by
  obtain ⟨e, -, hd⟩ := List.mem_flatMap.mp hd
  obtain ⟨r, -, -, index, source, translation, -, hd⟩ := exists_pair hd
  exact inOrder_checkPair hd

/-! ### What is made of highlights -/

namespace DiagnosticLine

/-- A piece of a line is counted in characters, which are those of its bytes. -/
theorem exists_charRange (hstart : Text.isBoundary cs a.start = true)
    (hstop : Text.isBoundary cs a.stop = true) (hle : a.start ≤ a.stop) :
    ∃ r, charRange? cs a = some r ∧ (cs.take r.2).drop r.1 = Span.text cs a := by
  obtain ⟨front, piece, rest, rfl, hfront, hpiece⟩ := Text.exists_pieces hstart hstop hle
  obtain ⟨start, stop⟩ := a
  obtain rfl : start = Text.byteLength front := hfront
  obtain rfl : stop = Text.byteLength front + Text.byteLength piece := hpiece
  have hlast := Text.charsBefore?_append (front ++ piece) rest
  rw [List.append_assoc, Text.byteLength_append] at hlast
  refine ⟨(front.length, (front ++ piece).length), ?_, ?_⟩
  · rw [charRange?, Text.charsBefore?_append, hlast]
    rfl
  · rw [Span.text_append, ← List.append_assoc, List.take_left, List.drop_left]

/-- A record keeps all highlights that are in order, and counts each of them in characters. -/
theorem forall₂_charRanges (h : Span.InOrder cs n spans) :
    List.Forall₂ (fun a r => (cs.take r.2).drop r.1 = Span.text cs a) spans
      (spans.filterMap (charRange? cs)) := by
  induction spans generalizing n with
  | nil => exact .nil
  | cons a spans ih =>
      obtain ⟨-, hlt, hstart, hstop, hrest⟩ := h
      obtain ⟨r, hr, htext⟩ := exists_charRange hstart hstop hlt.le
      rw [List.filterMap_cons_some hr]
      exact .cons htext (ih hrest)

/-- A display paints all highlights that are in order. -/
theorem highlight_eq (paint : List Char → List Char) (h : Span.InOrder cs 0 spans) :
    highlight paint 0 cs spans = weave paint (Span.outside cs 0 spans)
      (spans.map (Span.text cs)) := by
  have hweave := highlight_eq_weave paint [] cs spans
  rwa [List.nil_append, Text.byteLength, painted_eq_self h] at hweave

/-- The highlights are pieces of the line, one after the other. A record keeps all of them, counted
in characters, and a display paints all of them. -/
structure WellHighlighted (l : DiagnosticLine) : Prop where
  bounds : ∀ a ∈ l.highlights, a.start < a.stop ∧ a.stop ≤ Text.byteLength l.text.toList ∧
    Text.isBoundary l.text.toList a.start = true ∧ Text.isBoundary l.text.toList a.stop = true
  ordered : l.highlights.Pairwise fun a b => a.stop ≤ b.start
  counted : List.Forall₂
    (fun a r => (l.text.toList.take r.2).drop r.1 = Span.text l.text.toList a)
    l.highlights (l.highlights.filterMap (charRange? l.text.toList))
  painted : ∀ paint, highlight paint 0 l.text.toList l.highlights =
    weave paint (Span.outside l.text.toList 0 l.highlights)
      (l.highlights.map (Span.text l.text.toList))

theorem wellHighlighted {l : DiagnosticLine} (h : Span.InOrder l.text.toList 0 l.highlights) :
    l.WellHighlighted where
  bounds a ha := by
    obtain ⟨-, hlt, hstart, hstop⟩ := h.forall_mem a ha
    exact ⟨hlt, Text.le_byteLength_of_isBoundary hstop, hstart, hstop⟩
  ordered := h.pairwise
  counted := forall₂_charRanges h
  painted paint := highlight_eq paint h

end DiagnosticLine

/-- Every line of every diagnostic of a catalog is well highlighted. -/
theorem Catalog.check_wellHighlighted [Charsets] (data : List UInt8) (path : String)
    (rules : List Rule) (scope : CheckScope) :
    ∀ d ∈ (read data).check path rules scope, ∀ l ∈ d.lines, l.WellHighlighted :=
  fun _ hd l hl => DiagnosticLine.wellHighlighted (inOrder_check hd l hl)

/-- The translation is refused at a character of two bytes, which is highlighted as a whole. -/
theorem Catalog.check_wellHighlighted_refused :
    let data := "#, d-format\nmsgid \"%(%s%) %d\"\nmsgstr \"ü %é\"\n".toUTF8.toList
    let source : DiagnosticLine := ⟨2, "%(%s%) %d", [⟨0, 6⟩, ⟨7, 9⟩]⟩
    let translation : DiagnosticLine := ⟨3, "ü %é", [⟨4, 6⟩]⟩
    let d : Diagnostic :=
      { path := "de.po"
        rule := "d-formats"
        severity := .error
        message := "'msgstr' is not a valid D format string, unlike 'msgid'. Reason: " ++
          "In the directive number 1, the character 'é' is not a valid conversion specifier."
        lines := [source, ⟨0, "", []⟩, translation] }
    (read data).check "de.po" [.formats] ⟨false, false, false⟩ = [d] ∧
      source.WellHighlighted ∧ translation.WellHighlighted := by
  intro data source translation d
  have hcheck : (read data).check "de.po" [.formats] ⟨false, false, false⟩ = [d] := by
    decide +kernel
  have hd : d ∈ (read data).check "de.po" [.formats] ⟨false, false, false⟩ :=
    hcheck ▸ List.mem_singleton_self d
  have hlines := check_wellHighlighted data "de.po" [.formats] ⟨false, false, false⟩ d hd
  exact ⟨hcheck, hlines source (by simp [d]), hlines translation (by simp [d])⟩

end CatalogLint
