import CatalogLint.Lint.Painter
import CatalogLint.Proofs.Lint.Painting

/-!
# What a painter writes

The byte up to which a painter has written is always between two characters, so a painter never
fails, and it writes what is displayed (`Painter.run_eq`). Which highlights it passes over is told
by the one painted last before (`DiagnosticLine.painted_concat`).
-/
namespace CatalogLint

variable {paint : List Char → List Char} {cs front rest : List Char} {a : Span} {n : ℕ}
  {spans : List Span}

namespace DiagnosticLine

/-- Where the last one of some pieces ends; if there is none, at the given place. -/
def endOf (n : ℕ) (spans : List Span) : ℕ :=
  (spans.getLast?.map Span.stop).getD n

theorem endOf_cons (n : ℕ) (a : Span) (spans : List Span) :
    endOf n (a :: spans) = endOf a.stop spans := by
  rw [endOf, endOf, List.getLast?_cons]
  cases spans.getLast? <;> rfl

theorem painted_sublist : (painted cs n spans).Sublist spans := by
  induction spans generalizing n with
  | nil => exact .refl []
  | cons a spans ih =>
      rw [painted]
      split
      · exact ih.cons_cons a
      · exact ih.cons a

theorem painted_pairwise : (painted cs n spans).Pairwise fun a b => a.stop ≤ b.start := by
  induction spans generalizing n with
  | nil => exact .nil
  | cons a spans ih =>
      rw [painted]
      split
      · exact .cons (fun b hb => (painted_le b hb).1) ih
      · exact ih

theorem isPiece_of_mem_painted : ∀ a ∈ painted cs n spans, a.IsPiece cs := by
  induction spans generalizing n with
  | nil => exact nofun
  | cons a spans ih =>
      rw [painted]
      split
      · rename_i h
        exact List.forall_mem_cons.mpr ⟨h.2, ih⟩
      · exact ih

theorem painted_append (xs ys : List Span) :
    painted cs n (xs ++ ys) = painted cs n xs ++ painted cs (endOf n (painted cs n xs)) ys := by
  induction xs generalizing n with
  | nil => rfl
  | cons a xs ih =>
      rw [List.cons_append, painted, painted]
      split
      · rw [ih, endOf_cons, List.cons_append]
      · exact ih

/-- The last highlight is passed over if it starts before the end of the last one painted, if it is
reversed, or if one of its ends is no boundary of the text. -/
theorem painted_concat (spans : List Span) (a : Span) :
    painted cs n (spans ++ [a]) = painted cs n spans ++
      if a.start < endOf n (painted cs n spans) ∨ a.stop < a.start ∨
          Text.isBoundary cs a.start = false ∨ Text.isBoundary cs a.stop = false
        then [] else [a] := by
  have hover : (a.start < endOf n (painted cs n spans) ∨ a.stop < a.start ∨
      Text.isBoundary cs a.start = false ∨ Text.isBoundary cs a.stop = false) ↔
      ¬(endOf n (painted cs n spans) ≤ a.start ∧ a.IsPiece cs) := by
    simp only [Span.isPiece_iff, Classical.not_and_iff_not_or_not, Nat.not_le, Bool.not_eq_true]
  simp only [painted_append, painted, hover, ite_not]

/-- Wrapping nothing around the pieces gives the text again. -/
theorem weave_id (cs : List Char) (spans : List Span) :
    weave id (Span.outside cs 0 (painted cs 0 spans))
      ((painted cs 0 spans).map (Span.text cs)) = cs := by
  have hweave := highlight_eq_weave id [] cs spans
  have hpaint : ∀ piece : List Char, piece ⊆ cs → id piece = [] ++ (piece ++ []) :=
    fun piece _ => (List.append_nil piece).symm
  have hmarks := highlight_eq_withMarks [] cs spans hpaint
  have hnone (k : ℕ) : marks [] [] (painted cs 0 spans) k = [] := by
    rw [marks, List.flatMap_eq_nil_iff]
    exact fun a _ => by rw [ite_self, ite_self]; rfl
  rw [List.nil_append, Text.byteLength] at hweave hmarks
  rw [← hweave, hmarks, withMarks_eq_self hnone]

end DiagnosticLine

namespace Painter
open DiagnosticLine

variable {p : Painter}

theorem wrap_of_isPiece {gap mid after : List Char} (hp : p.place = Text.byteLength front)
    (hstart : a.start = Text.byteLength front + Text.byteLength gap)
    (hstop : a.stop = a.start + Text.byteLength mid) :
    p.wrap paint (front ++ (gap ++ (mid ++ after))) a =
      ⟨p.written ++ gap ++ paint mid, a.stop⟩ := by
  have hgap := Text.piece?_append front gap (mid ++ after)
  have hmid := Text.piece?_append (front ++ gap) mid after
  rw [← hstart, ← hp] at hgap
  rw [List.append_assoc, Text.byteLength_append, ← hstart, ← hstop] at hmid
  rw [wrap, if_neg (by omega), hgap, hmid]

theorem wrap_of_not (h : ¬(p.place ≤ a.start ∧ a.IsPiece cs)) : p.wrap paint cs a = p := by
  rw [wrap]
  split
  · rfl
  · rename_i hle
    have hnone : Text.piece? cs a.start a.stop = none := by
      rw [← Option.not_isSome_iff_eq_none]
      exact fun hpiece => h ⟨Nat.le_of_not_lt hle, hpiece⟩
    rw [hnone]
    cases Text.piece? cs p.place a.start <;> rfl

/-- A painter that has written up to a boundary writes the rest as it is displayed. -/
theorem finish_foldl (front rest : List Char) (hp : p.place = Text.byteLength front) :
    (spans.foldl (wrap paint (front ++ rest)) p).finish (front ++ rest) =
      .ok (p.written ++ highlight paint (Text.byteLength front) rest spans) := by
  induction spans generalizing front rest p with
  | nil => rw [List.foldl_nil, finish, hp, Text.dropBytes_append, highlight]
  | cons a spans ih =>
      rw [List.foldl_cons]
      by_cases h : Text.byteLength front ≤ a.start ∧ a.IsPiece (front ++ rest)
      · obtain ⟨gap, mid, after, rfl, hstart, hstop⟩ := h.2.exists_gap h.1
        have hplace : a.stop = Text.byteLength (front ++ (gap ++ mid)) := by
          rw [Text.byteLength_append, Text.byteLength_append]
          omega
        have hnext := ih (p := ⟨p.written ++ gap ++ paint mid, a.stop⟩) (front ++ (gap ++ mid))
          after hplace
        rw [← hplace, List.append_assoc, List.append_assoc] at hnext
        rw [wrap_of_isPiece hp hstart hstop, hnext, highlight_cons_of_isPiece hstart hstop]
        simp only [List.append_assoc]
      · rw [wrap_of_not (hp ▸ h), ih front rest hp, highlight_cons_of_not h]

theorem run_eq (paint : List Char → List Char) (cs : List Char) (spans : List Span) :
    run paint cs spans = .ok (highlight paint 0 cs spans) :=
  finish_foldl (p := start) [] cs rfl

/-- Whatever the highlights of a line are and however they are painted, a painter does not fail on
them and writes what is displayed: the text, all of it and in order, with some of the highlights
painted. Those are in their order and apart from each other. A highlight is passed over exactly if
it starts before the end of the last one painted, is reversed, or has an end that is no boundary of
the text. -/
theorem run_wraps (paint : List Char → List Char) (l : DiagnosticLine) :
    let cs := l.text.toList
    let wrapped := painted cs 0 l.highlights
    let gaps := Span.outside cs 0 wrapped
    let pieces := wrapped.map (Span.text cs)
    run paint cs l.highlights = .ok (l.highlighted paint) ∧
      l.highlighted paint = weave paint gaps pieces ∧ weave id gaps pieces = cs ∧
      wrapped.Sublist l.highlights ∧ (∀ a ∈ wrapped, a.IsPiece cs) ∧
      wrapped.Pairwise (fun a b => a.stop ≤ b.start) ∧
      ∀ before a after, l.highlights = before ++ a :: after →
        painted cs 0 (before ++ [a]) <+: wrapped ∧
          painted cs 0 (before ++ [a]) = painted cs 0 before ++
            if a.start < endOf 0 (painted cs 0 before) ∨ a.stop < a.start ∨
                Text.isBoundary cs a.start = false ∨ Text.isBoundary cs a.stop = false
              then [] else [a] := by
  dsimp only
  refine ⟨run_eq _ _ _, ?_, weave_id _ _, painted_sublist, isPiece_of_mem_painted,
    painted_pairwise, fun before a after h => ⟨?_, painted_concat before a⟩⟩
  · exact highlight_eq_weave paint [] l.text.toList l.highlights
  · rw [h, List.append_cons before a after, painted_append (before ++ [a]) after]
    exact List.prefix_append _ _

/-- An overlapping, a reversed, a cut and an empty highlight, and one past the end. The overlapping
one is passed over. -/
theorem run_wraps_overlapping :
    let paint (piece : List Char) := '<' :: piece ++ ['>']
    let a : Span := ⟨1, 3⟩
    let after : List Span := [⟨3, 2⟩, ⟨3, 4⟩, ⟨2, 2⟩, ⟨6, 8⟩, ⟨8, 9⟩]
    let l : DiagnosticLine := ⟨1, "%s é %d", ⟨0, 2⟩ :: a :: after⟩
    run paint l.text.toList l.highlights = .ok "<%s><> é <%d>".toList ∧
      l.highlights = [⟨0, 2⟩] ++ a :: after ∧
      painted l.text.toList 0 ([⟨0, 2⟩] ++ [a]) = [⟨0, 2⟩] := by
  intro paint a after l
  obtain ⟨hrun, -, -, -, -, -, hpassed⟩ := run_wraps paint l
  have hwritten : l.highlighted paint = "<%s><> é <%d>".toList := by decide +kernel
  have hlast := (hpassed [⟨0, 2⟩] a after rfl).2
  refine ⟨hrun.trans (congrArg Except.ok hwritten), rfl, ?_⟩
  rw [hlast]
  decide +kernel

end Painter

end CatalogLint
