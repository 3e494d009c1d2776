import CatalogLint.Lint.Diagnostic
import CatalogLint.Proofs.Text.Piece

/-!
# What is painted

A line is displayed with those of its highlights painted that are pieces of it and do not start
inside an earlier one (`DiagnosticLine.painted`). Painting keeps the text around them
(`DiagnosticLine.highlight_eq_weave`); what it does to them is to put marks around them
(`DiagnosticLine.highlight_eq_withMarks`).
-/
namespace CatalogLint

variable {cs front rest : List Char} {a : Span} {n : ℕ} {spans : List Span}

namespace Text

theorem exists_of_takeBytes {mid : List Char} (h : takeBytes n cs = some mid) :
    ∃ rest, cs = mid ++ rest ∧ n = byteLength mid := by
  fun_induction takeBytes n cs generalizing mid with
  | case1 cs =>
      cases h
      exact ⟨cs, rfl, rfl⟩
  | case2 => cases h
  | case3 n c cs hle ih =>
      obtain ⟨mid, hmid, rfl⟩ := Option.map_eq_some_iff.mp h
      obtain ⟨rest, rfl, hn⟩ := ih hmid
      exact ⟨rest, rfl, by rw [byteLength]; omega⟩
  | case4 => cases h

end Text

namespace Span

/-- The ends are boundaries of the text, in their order. -/
def IsPiece (cs : List Char) (a : Span) : Prop :=
  (Text.piece? cs a.start a.stop).isSome = true
  deriving Decidable

theorem isPiece_append (front mid rest : List Char) : IsPiece (front ++ (mid ++ rest))
    ⟨Text.byteLength front, Text.byteLength front + Text.byteLength mid⟩ := by
  rw [IsPiece, Text.piece?_append]
  rfl

theorem IsPiece.exists_append (h : IsPiece cs a) : ∃ front mid rest, cs = front ++ (mid ++ rest) ∧
    a.start = Text.byteLength front ∧ a.stop = Text.byteLength front + Text.byteLength mid := by
  obtain ⟨mid, hmid⟩ := Option.isSome_iff_exists.mp h
  rw [Text.piece?] at hmid
  split at hmid
  · obtain ⟨inside, hinside, hpiece⟩ := Option.bind_eq_some_iff.mp hmid
    obtain ⟨front, rfl, hfront⟩ := Text.exists_of_dropBytes hinside
    obtain ⟨rest, rfl, hstop⟩ := Text.exists_of_takeBytes hpiece
    exact ⟨front, mid, rest, rfl, hfront, by omega⟩
  · cases hmid

theorem isPiece_iff : a.IsPiece cs ↔ a.start ≤ a.stop ∧
    Text.isBoundary cs a.start = true ∧ Text.isBoundary cs a.stop = true := by
  constructor
  · intro h
    obtain ⟨front, mid, rest, rfl, hstart, hstop⟩ := h.exists_append
    have hend := Text.isBoundary_append (front ++ mid) rest
    rw [List.append_assoc, Text.byteLength_append] at hend
    rw [hstart, hstop]
    exact ⟨Nat.le_add_right _ _, Text.isBoundary_append front (mid ++ rest), hend⟩
  · rintro ⟨hle, hstart, hstop⟩
    obtain ⟨front, mid, rest, rfl, hfront, hmid⟩ := Text.exists_pieces hstart hstop hle
    obtain ⟨start, stop⟩ := a
    obtain rfl : start = Text.byteLength front := hfront
    obtain rfl : stop = Text.byteLength front + Text.byteLength mid := hmid
    exact isPiece_append front mid rest

/-- A piece that starts in the second part of a text lies in that part. -/
theorem IsPiece.exists_gap (h : IsPiece (front ++ rest) a)
    (hle : Text.byteLength front ≤ a.start) : ∃ gap mid after, rest = gap ++ (mid ++ after) ∧
      a.start = Text.byteLength front + Text.byteLength gap ∧
      a.stop = a.start + Text.byteLength mid := by
  obtain ⟨front', mid, after, hcs, hstart, hstop⟩ := h.exists_append
  have hboundary := Text.isBoundary_append front' (mid ++ after)
  rw [← hcs, ← hstart] at hboundary
  obtain ⟨gap, inside, rfl, hgap⟩ := Text.exists_append_of_isBoundary hboundary hle
  have hinside := Text.dropBytes_append (front ++ gap) inside
  rw [List.append_assoc, hcs, Text.byteLength_append, ← hgap, hstart, Text.dropBytes_append,
    Option.some_inj] at hinside
  exact ⟨gap, mid, after, by rw [hinside], hgap, by omega⟩

end Span

namespace DiagnosticLine

/-- The highlights that are painted, from a place on. -/
def painted (cs : List Char) : ℕ → List Span → List Span
  | _, [] => []
  | n, a :: spans =>
      if n ≤ a.start ∧ a.IsPiece cs then a :: painted cs a.stop spans else painted cs n spans

/-- The marks that stand at a place, when each piece stands between two of them. -/
def marks (on off : List Char) (spans : List Span) (n : ℕ) : List Char :=
  spans.flatMap fun a => (if a.start = n then on else []) ++ if a.stop = n then off else []

/-- A text that starts at a place, with the marks of every place put in. -/
def withMarks (marks : ℕ → List Char) : ℕ → List Char → List Char
  | n, [] => marks n
  | n, c :: cs => marks n ++ c :: withMarks marks (n + c.utf8Size) cs

theorem painted_le : ∀ a ∈ painted cs n spans, n ≤ a.start ∧ a.start ≤ a.stop := by
  induction spans generalizing n with
  | nil => exact nofun
  | cons a spans ih =>
      rw [painted]
      split
      · rename_i h
        obtain ⟨hle, hpiece⟩ := h
        obtain ⟨front, mid, rest, -, hstart, hstop⟩ := hpiece.exists_append
        refine List.forall_mem_cons.mpr ⟨⟨hle, by omega⟩, fun b hb => ?_⟩
        obtain ⟨hb, hb'⟩ := ih b hb
        exact ⟨by omega, hb'⟩
      · exact ih

/-- Pieces in order are all painted. -/
theorem painted_eq_self (h : Span.InOrder cs n spans) : painted cs n spans = spans := by
  induction spans generalizing n with
  | nil => rfl
  | cons a spans ih =>
      obtain ⟨hle, hlt, hstart, hstop, hrest⟩ := h
      rw [painted, if_pos ⟨hle, Span.isPiece_iff.mpr ⟨Nat.le_of_lt hlt, hstart, hstop⟩⟩, ih hrest]

theorem marks_eq_nil {on off : List Char} (h : ∀ a ∈ spans, a.start ≠ n ∧ a.stop ≠ n) :
    marks on off spans n = [] := by
  refine List.flatMap_eq_nil_iff.mpr fun a ha => ?_
  rw [if_neg (h a ha).1, if_neg (h a ha).2]
  rfl

theorem marks_eq_nil_iff {on off : List Char} (hon : on ≠ []) (hoff : off ≠ []) :
    marks on off spans n = [] ↔ ∀ a ∈ spans, a.start ≠ n ∧ a.stop ≠ n := by
  refine ⟨fun h a ha => ?_, marks_eq_nil⟩
  have hmark := List.flatMap_eq_nil_iff.mp h a ha
  rw [List.append_eq_nil_iff, ite_eq_right_iff, ite_eq_right_iff] at hmark
  exact ⟨fun h => hon (hmark.1 h), fun h => hoff (hmark.2 h)⟩

section WithMarks
variable {m m' : ℕ → List Char}

theorem withMarks_ne_nil (h : rest ≠ []) : withMarks m n rest ≠ [] := by
  cases rest with
  | nil => exact absurd rfl h
  | cons c rest => simp [withMarks]

/-- Where no mark stands the text is as it is. -/
theorem withMarks_append (hfront : ∀ k, n ≤ k → k < n + Text.byteLength front → m k = []) :
    withMarks m n (front ++ rest) = front ++ withMarks m (n + Text.byteLength front) rest := by
  induction front generalizing n with
  | nil => rw [List.nil_append, List.nil_append, Text.byteLength, Nat.add_zero]
  | cons c front ih =>
      have hsize := c.utf8Size_pos
      rw [Text.byteLength] at hfront
      rw [List.cons_append, withMarks, hfront n (Nat.le_refl n) (by omega), List.nil_append,
        ih fun k hle hlt => hfront k (by omega) (by omega), Text.byteLength, Nat.add_assoc]
      rfl

theorem withMarks_eq_self (h : ∀ k, m k = []) : withMarks m n rest = rest := by
  have happend : withMarks m n (rest ++ []) = rest ++ withMarks m (n + Text.byteLength rest) [] :=
    withMarks_append fun k _ _ => h k
  rwa [List.append_nil, withMarks, h, List.append_nil] at happend

theorem withMarks_congr (h : ∀ k, n ≤ k → m k = m' k) :
    withMarks m n rest = withMarks m' n rest := by
  induction rest generalizing n with
  | nil => exact h n (Nat.le_refl n)
  | cons c rest ih =>
      rw [withMarks, withMarks, h n (Nat.le_refl n), ih fun k hle => h k (by omega)]

/-- A mark at the first place stands in front. -/
theorem withMarks_of_eq_append {front : List Char} (hn : m n = front ++ m' n)
    (h : ∀ k, n < k → m k = m' k) : withMarks m n rest = front ++ withMarks m' n rest := by
  cases rest with
  | nil => exact hn
  | cons c rest =>
      have hsize := c.utf8Size_pos
      rw [withMarks, withMarks, hn, withMarks_congr fun k hle => h k (by omega),
        List.append_assoc]

/-- A piece stands between two marks, if the others come behind it. -/
theorem withMarks_marks_cons {on off gap mid after : List Char}
    (hstart : a.start = n + Text.byteLength gap) (hstop : a.stop = a.start + Text.byteLength mid)
    (hspans : ∀ b ∈ spans, a.stop ≤ b.start ∧ b.start ≤ b.stop) :
    withMarks (marks on off (a :: spans)) n (gap ++ (mid ++ after)) =
      gap ++ (on ++ (mid ++ (off ++ withMarks (marks on off spans) a.stop after))) := by
  have hspans (k : ℕ) (hk : k < a.stop) : marks on off spans k = [] :=
    marks_eq_nil fun b hb => by
      have := hspans b hb
      omega
  -- The marks that are left once the first one is set.
  let closing (k : ℕ) := (if a.stop = k then off else []) ++ marks on off spans k
  have hclosing (k : ℕ) (hk : k < a.stop) : closing k = [] := by
    dsimp only [closing]
    rw [if_neg (by omega), hspans k hk]
    rfl
  have hopening (k : ℕ) : marks on off (a :: spans) k =
      (if a.start = k then on else []) ++ closing k := by
    rw [marks, List.flatMap_cons, List.append_assoc]
    rfl
  have hgap : withMarks (marks on off (a :: spans)) n (gap ++ (mid ++ after)) =
      gap ++ withMarks (marks on off (a :: spans)) (n + Text.byteLength gap) (mid ++ after) :=
    withMarks_append fun k _ hk => by
      rw [hopening, if_neg (by omega), hclosing k (by omega)]
      rfl
  have hon : withMarks (marks on off (a :: spans)) a.start (mid ++ after) =
      on ++ withMarks closing a.start (mid ++ after) :=
    withMarks_of_eq_append (by rw [hopening, if_pos rfl]) fun k hk => by
      rw [hopening, if_neg (by omega), List.nil_append]
  have hmid : withMarks closing a.start (mid ++ after) =
      mid ++ withMarks closing (a.start + Text.byteLength mid) after :=
    withMarks_append fun k _ hk => hclosing k (by omega)
  have hoff : withMarks closing a.stop after = off ++ withMarks (marks on off spans) a.stop after :=
    withMarks_of_eq_append (by dsimp only [closing]; rw [if_pos rfl]) fun k hk => by
      dsimp only [closing]
      rw [if_neg (by omega), List.nil_append]
  rw [hgap, ← hstart, hon, hmid, ← hstop, hoff]

end WithMarks

variable {paint : List Char → List Char}

theorem highlight_cons_of_isPiece {gap mid after : List Char}
    (hstart : a.start = n + Text.byteLength gap) (hstop : a.stop = a.start + Text.byteLength mid) :
    highlight paint n (gap ++ (mid ++ after)) (a :: spans) =
      gap ++ paint mid ++ highlight paint a.stop after spans := by
  have hgap : a.start - n = Text.byteLength gap := by omega
  have hmid : a.stop - a.start = Text.byteLength mid := by omega
  have hkept : ¬(decide (a.start < n) || decide (a.stop < a.start)) = true := by
    simp only [Bool.or_eq_true, decide_eq_true_iff]
    omega
  rw [highlight, if_neg hkept, hgap, hmid]
  simp only [Text.takeBytes_append, Text.dropBytes_append]

theorem highlight_cons_of_not
    (h : ¬(Text.byteLength front ≤ a.start ∧ a.IsPiece (front ++ rest))) :
    highlight paint (Text.byteLength front) rest (a :: spans) =
      highlight paint (Text.byteLength front) rest spans := by
  rw [highlight]
  split
  · rfl
  rename_i hkept
  simp only [Bool.or_eq_true, decide_eq_true_iff, not_or, Nat.not_lt] at hkept
  split
  · rename_i before inside hbefore hinside
    split
    · rename_i piece after hpiece hafter
      refine absurd ⟨hkept.1, ?_⟩ h
      obtain ⟨gap, rfl, hgap⟩ := Text.exists_of_dropBytes hinside
      obtain ⟨after, rfl, hlength⟩ := Text.exists_of_takeBytes hpiece
      have hpiece := Span.isPiece_append (front ++ gap) piece after
      have ha : a = ⟨Text.byteLength (front ++ gap),
          Text.byteLength (front ++ gap) + Text.byteLength piece⟩ := by
        obtain ⟨start, stop⟩ := a
        rw [Text.byteLength_append]
        congr 1 <;> dsimp only at hkept hgap hlength <;> omega
      rwa [ha, ← List.append_assoc]
    · rfl
  · rfl

/-- The text around the pieces, with the pieces painted. -/
def weave (paint : List Char → List Char) : List (List Char) → List (List Char) → List Char
  | gap :: gaps, piece :: pieces => gap ++ paint piece ++ weave paint gaps pieces
  | gaps, _ => gaps.flatten

/-- Painting keeps the text around the painted pieces. -/
theorem highlight_eq_weave (paint : List Char → List Char) (front rest : List Char)
    (spans : List Span) :
    let chosen := painted (front ++ rest) (Text.byteLength front) spans
    highlight paint (Text.byteLength front) rest spans =
      weave paint (Span.outside (front ++ rest) (Text.byteLength front) chosen)
        (chosen.map (Span.text (front ++ rest))) := by
  dsimp only
  induction spans generalizing front rest with
  | nil =>
      rw [highlight, painted, Span.outside_nil]
      simp [weave]
  | cons a spans ih =>
      rw [painted]
      split
      · rename_i h
        obtain ⟨gap, mid, after, rfl, hstart, hstop⟩ := h.2.exists_gap h.1
        obtain ⟨start, stop⟩ := a
        obtain rfl : start = Text.byteLength front + Text.byteLength gap := hstart
        obtain rfl : stop = Text.byteLength front + Text.byteLength gap + Text.byteLength mid :=
          hstop
        have hnext := ih (front ++ gap ++ mid) after
        have hmid := Span.text_append (front ++ gap) mid after
        simp only [Text.byteLength_append, List.append_assoc, ← Nat.add_assoc] at hnext hmid
        rw [highlight_cons_of_isPiece rfl rfl, hnext, Span.outside_cons, List.map_cons, hmid, weave]
      · rename_i h
        rw [highlight_cons_of_not h, ih front rest]

/-- Painting puts marks around the painted pieces and leaves the text as it is. -/
theorem highlight_eq_withMarks {on off : List Char} (front rest : List Char) (spans : List Span)
    (hpaint : ∀ piece, piece ⊆ rest → paint piece = on ++ (piece ++ off)) :
    highlight paint (Text.byteLength front) rest spans =
      withMarks (marks on off (painted (front ++ rest) (Text.byteLength front) spans))
        (Text.byteLength front) rest := by
  induction spans generalizing front rest with
  | nil =>
      rw [highlight, painted, withMarks_eq_self (m := marks on off []) fun k => rfl]
  | cons a spans ih =>
      rw [painted]
      split
      · rename_i h
        obtain ⟨gap, mid, after, rfl, hstart, hstop⟩ := h.2.exists_gap h.1
        have hplace : Text.byteLength (front ++ (gap ++ mid)) = a.stop := by
          rw [Text.byteLength_append, Text.byteLength_append]
          omega
        have hafter : front ++ (gap ++ mid) ++ after = front ++ (gap ++ (mid ++ after)) := by
          simp only [List.append_assoc]
        have hnext := ih (front ++ (gap ++ mid)) after fun piece h => hpaint piece fun c hc =>
          List.mem_append_right gap (List.mem_append_right mid (h hc))
        rw [hplace, hafter] at hnext
        rw [highlight_cons_of_isPiece hstart hstop, hnext, hpaint mid fun c hc =>
            List.mem_append_right gap (List.mem_append_left after hc),
          withMarks_marks_cons hstart hstop fun b hb => painted_le b hb]
        simp only [List.append_assoc]
      · rename_i h
        rw [highlight_cons_of_not h, ih front rest hpaint]

end DiagnosticLine

end CatalogLint
