import CatalogLint.Format.Indicator
import CatalogLint.Proofs.Text.Offset

/-!
# Pieces of a text

Pieces are in order (`Span.InOrder`) when they follow one another and their ends are boundaries;
between them there is text outside (`Span.outside`).
-/
namespace CatalogLint.Span

variable {cs : List Char} {n : ℕ} {a : Span} {spans : List Span}

theorem text_append (front mid rest : List Char) : text (front ++ (mid ++ rest))
    ⟨Text.byteLength front, Text.byteLength front + Text.byteLength mid⟩ = mid := by
  rw [text, Text.piece?_append]
  rfl

/-- The text before, between and after pieces, from a place on. -/
def outside (cs : List Char) : ℕ → List Span → List (List Char)
  | n, [] => [text cs ⟨n, Text.byteLength cs⟩]
  | n, a :: rest => text cs ⟨n, a.start⟩ :: outside cs a.stop rest

theorem outside_nil (front mid : List Char) :
    outside (front ++ mid) (Text.byteLength front) [] = [mid] := by
  have htext := text_append front mid []
  rw [List.append_nil] at htext
  rw [outside, Text.byteLength_append, htext]

theorem outside_cons (front mid piece rest : List Char) (spans : List Span) :
    let start := Text.byteLength front + Text.byteLength mid
    let stop := start + Text.byteLength piece
    outside (front ++ (mid ++ (piece ++ rest))) (Text.byteLength front) (⟨start, stop⟩ :: spans) =
      mid :: outside (front ++ (mid ++ (piece ++ rest))) stop spans := by
  dsimp only
  rw [outside, text_append]

/-- Pieces of a text from a place on, one after the other, none of them empty, with their ends
between two characters. -/
def InOrder (cs : List Char) : ℕ → List Span → Prop
  | _, [] => True
  | n, a :: rest => n ≤ a.start ∧ a.start < a.stop ∧ Text.isBoundary cs a.start = true ∧
      Text.isBoundary cs a.stop = true ∧ InOrder cs a.stop rest

namespace InOrder

theorem forall_mem (h : InOrder cs n spans) : ∀ a ∈ spans, n ≤ a.start ∧ a.start < a.stop ∧
    Text.isBoundary cs a.start = true ∧ Text.isBoundary cs a.stop = true := by
  induction spans generalizing n with
  | nil => exact nofun
  | cons a spans ih =>
      obtain ⟨hle, hlt, hstart, hstop, hrest⟩ := h
      refine List.forall_mem_cons.mpr ⟨⟨hle, hlt, hstart, hstop⟩, fun b hb => ?_⟩
      obtain ⟨hle', hb⟩ := ih hrest b hb
      exact ⟨by omega, hb⟩

theorem pairwise (h : InOrder cs n spans) : spans.Pairwise fun a b => a.stop ≤ b.start := by
  induction spans generalizing n with
  | nil => exact .nil
  | cons a spans ih =>
      obtain ⟨-, -, -, -, hrest⟩ := h
      exact .cons (fun b hb => (hrest.forall_mem b hb).1) (ih hrest)

end InOrder

/-- The piece is the character that a byte belongs to. -/
def IsCharacter (cs : List Char) (n : ℕ) (a : Span) : Prop :=
  ∃ front c rest, cs = front ++ c :: rest ∧
    a = ⟨Text.byteLength front, Text.byteLength front + c.utf8Size⟩ ∧ a.start ≤ n ∧ n < a.stop

theorem IsCharacter.boundaryFrom (h : a.IsCharacter cs n) :
    Text.boundaryFrom cs (n + 1) = a.stop := by
  obtain ⟨front, c, rest, rfl, rfl, hle, hlt⟩ := h
  exact Text.boundaryFrom_append (Nat.lt_succ_of_le hle) hlt

end CatalogLint.Span
