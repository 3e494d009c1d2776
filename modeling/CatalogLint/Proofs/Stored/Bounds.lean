import CatalogLint.Proofs.ArgList.Open
import CatalogLint.Proofs.Stored.Narrow

/-!
# How large lists under construction become

As long as a list is open, narrowing it leaves as many arguments in its loop and covers no more
before the loop than the constraint asks for. Its shapes are settled, so that element lists have
two arguments at most, however large the list itself is.
-/
namespace CatalogLint

namespace ArgList
variable {w : Word} {l m : ArgList} {n first last : ℕ} {t : Shape}

theorem isFinite_endAt (h : l.endAt n = some m) : m.isFinite = true := by
  rw [endAt] at h
  split_ifs at h with hend
  · cases h
    exact (Bool.and_eq_true _ _ ▸ hend).1
  · dsimp only at h
    unfold endBefore at h
    split at h
    · exact isFinite_iff.mpr (repeated_backtrack h)
    · cases h
      rfl

theorem extent_isolate_le (h : l.Positive) (hle : first ≤ last) :
    Segment.extent (l.isolate first last).initial ≤ max (last + 1) (Segment.extent l.initial) := by
  rw [isolate]
  split_ifs with heq
  · subst heq
    have := extent_split_le h (first + 1)
    rwa [← Segment.length_cells, cells_unshare, ← cells_split, Segment.length_cells]
  · have := extent_split_le (h.split first) (last + 1)
    have := extent_split_le h first
    omega

theorem extent_repeated_isolate (l : ArgList) (first last : ℕ) :
    Segment.extent (l.isolate first last).repeated = Segment.extent l.repeated := by
  rw [isolate]
  split_ifs
  · rw [repeated_unshare, ← repeated_split, extent_repeated_split]
  · rw [extent_repeated_split, extent_repeated_split]

theorem extent_require (h : l.Positive) (hm : l.require n = some m) :
    Segment.extent m.initial ≤ max (n + 1) (Segment.extent l.initial) ∧
      Segment.extent m.repeated = Segment.extent l.repeated := by
  obtain ⟨-, front, back, hcut, rfl⟩ := require_eq_some h hm
  refine ⟨?_, extent_repeated_split l (n + 1)⟩
  dsimp only
  rw [Segment.extent_append, Segment.extent_map_require, ← Segment.extent_append, ← hcut.initial]
  exact extent_split_le h (n + 1)

theorem extent_requireShape (h : l.Storable w) (hle : first ≤ last) (hfits : w.Fits (last + 1))
    (hm : l.requireShape first last t = some m) (hfin : m.isFinite = false) :
    Segment.extent m.initial ≤ max (last + 1) (Segment.extent l.initial) ∧
      Segment.extent m.repeated = Segment.extent l.repeated := by
  obtain ⟨k, hk, hm⟩ := Option.bind_eq_some_iff.mp hm
  obtain ⟨hinitial, hrepeated⟩ := extent_require h.positive hk
  have hkStorable := h.require hfits k hk
  obtain ⟨front, mid, back, hl, -⟩ :=
    isolate_stored hkStorable hle (reaches_require h.positive hk) hfits
  rw [restrict_eq hl] at hm
  split_ifs at hm
  · cases hm
    rw [extent_restricted hl.mid hl.initial]
    have := extent_isolate_le hkStorable.positive hle
    refine ⟨by omega, ?_⟩
    rw [← hrepeated, ← extent_repeated_isolate k first last]
    rfl
  · rw [isFinite_endAt hm] at hfin
    cases hfin

theorem extent_restrictFrom (h : l.Positive) (hr : l.Reaches n)
    (hm : l.restrictFrom n t = some m) (hfin : m.isFinite = false) :
    Segment.extent m.initial ≤ max n (Segment.extent l.initial) ∧
      Segment.extent m.repeated = Segment.extent l.repeated := by
  obtain ⟨front, rest, hl⟩ := exists_cutAt_split h hr
  have hinitial : (l.split n).initial = front ++ (rest ++ []) := by
    rw [hl.initial, List.append_nil]
  rw [restrictFrom_eq hl] at hm
  split_ifs at hm
  · cases hm
    constructor
    · change Segment.extent ((l.split n).restricted front rest [] t).initial ≤ _
      rw [extent_restricted hl.back hinitial]
      exact extent_split_le h n
    · change Segment.extent ((Segment.restrict t (l.split n).repeated).1 ++
        (Segment.restrict t (l.split n).repeated).2) = _
      rw [Segment.extent_restrict (h.split n).2, extent_repeated_split]
  · rw [isFinite_endAt hm] at hfin
    cases hfin
  · rw [isFinite_endAt hm] at hfin
    cases hfin

end ArgList

/-- Numbers up to two. -/
def Word.two : Word :=
  ⟨some 2⟩

theorem Word.covers_two : Word.bits64.Covers .two := by
  intro k m n hk hm hn
  have hk := hk 2 rfl
  have hmn := Nat.mul_le_mul (hm 2 rfl) (hn 2 rfl)
  rw [Word.fits_bits64]
  omega

/-- Element lists of settled shapes have two arguments at most. -/
theorem Shape.Settled.storable {s : Shape} (h : s.Settled) : s.Storable .two := by
  refine ⟨h.kinds_nonempty, ?_⟩
  induction h with
  | plain => nofun
  | @compound k i r n arity requires ends elements ih =>
      rintro m ⟨⟩
      obtain ⟨hfin, hext⟩ := (ArgList.cellAt_eq_none_iff requires.positive).mp ends
      have hn : n ≤ 2 := by
        rcases Kinds.arity_eq_some arity with ⟨-, rfl⟩ | ⟨-, rfl⟩ <;> decide
      have hr : r = [] := ArgList.isFinite_iff.mp hfin
      refine .of_cells requires.positive ?_ ?_ fun p c hc =>
        ⟨(elements p c hc).kinds_nonempty, ih p c hc⟩
      · rintro k ⟨⟩
        exact hext.trans hn
      · subst hr
        exact Word.fits_zero _

theorem ArgList.Settled.storable {l : ArgList} (h : l.Settled) (hl : l.Positive) :
    ∀ r ∈ l.runs, r.shape.Storable .two := by
  intro r hr
  obtain ⟨n, hn⟩ := exists_cellAt_of_mem_runs hl hr
  exact (h n r.cell hn).storable

end CatalogLint
