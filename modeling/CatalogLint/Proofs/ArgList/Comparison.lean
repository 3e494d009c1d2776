import CatalogLint.ArgList.Comparison
import CatalogLint.Proofs.ArgList.Separation

/-!
# Comparisons are exact

The lists of format strings are settled and in normal form (`Reduced`). Of two such lists the
comparison of runs finds out whether they accept the same arguments (`agrees_equivalent`), and
whether the first one accepts whatever the second one does (`agrees_subset`): the second list is
then the normal form of what they have in common.
-/
namespace CatalogLint
open Sequence

namespace ArgList

/-- A settled list in normal form that requires `n` arguments. -/
structure Reduced (n : ℕ) (l : ArgList) : Prop where
  requires : l.Requires n
  settled : l.Settled
  normal : l.normalize = l

variable {a b r : ArgList} {m n : ℕ}

theorem Reduced.wellFormed (h : a.Reduced n) : a.WellFormed :=
  h.settled.wellFormed h.requires.positive

theorem Reduced.elementwise (h : a.Reduced n) : a.Elementwise :=
  h.settled.elementwise h.requires.positive

/-- The normal form of a settled list. -/
theorem Requires.reduced (h : a.Requires n) (hs : a.Settled) : a.normalize.Reduced n :=
  ⟨h.normalize, hs.normalize h.positive, normalize_normalize (hs.wellFormed h.positive)⟩

theorem Reduced.eq_iff (ha : a.Reduced n) (hb : b.Reduced m) :
    a = b ↔ ∀ xs, a.Accepts xs ↔ b.Accepts xs := by
  constructor
  · rintro rfl xs
    exact Iff.rfl
  · intro h
    rw [← ha.normal, ← hb.normal]
    exact ha.requires.normalize_eq hb.requires ha.settled hb.settled h

theorem agrees_equivalent (ha : a.Reduced n) (hb : b.Reduced m) :
    agrees .equivalent a b = true ↔ ∀ xs, a.Accepts xs ↔ b.Accepts xs := by
  rw [agrees, decide_eq_true_iff]
  exact ha.eq_iff hb

theorem accepts_empty (xs : List Value) : empty.Accepts xs ↔ xs = [] := by
  rw [accepts_iff_follows, Follows]
  cases xs with
  | nil => simp [empty, cellAt, argAt, isFinite, Segment.extent]
  | cons x xs =>
      simp only [reduceCtorEq, iff_false, not_and]
      intro h
      obtain ⟨c, hc, -⟩ := h 0 x rfl
      cases hc

/-- No arguments are accepted where the first one is not required. -/
theorem Requires.accepts_nil (h : a.Requires n) :
    a.Accepts [] ↔ a.firstPresence ≠ some .required := by
  rw [h.accepts_iff, firstPresence_eq h.positive]
  simp only [List.length_nil, List.getElem?_nil, reduceCtorEq, false_imp_iff, implies_true,
    and_true]
  cases hc : a.cellAt 0 with
  | none =>
      simp only [Option.map_none, ne_eq, reduceCtorEq, not_false_iff, iff_true]
      exact h.le_of_none hc
  | some c =>
      rw [Option.map_some, ne_eq, Option.some.injEq, h.presence 0 c hc]
      omega

theorem agrees_subset (ha : a.Reduced n) (hb : b.Reduced m) :
    agrees .subset a b = true ↔ ∀ xs, b.Accepts xs → a.Accepts xs := by
  have hboth := accepts_intersect ha.wellFormed hb.wellFormed ha.elementwise hb.elementwise
  rw [agrees, decide_eq_true_iff]
  by_cases hempty : b.isEmpty = true
  · obtain ⟨initial, repeated⟩ := b
    obtain ⟨rfl, rfl⟩ : initial = [] ∧ repeated = [] := by simpa [isEmpty] using hempty
    have hnil : (∀ xs, empty.Accepts xs → a.Accepts xs) ↔ a.Accepts [] := by
      simp only [accepts_empty, forall_eq]
    rw [if_pos hempty, ← empty, hnil, ha.requires.accepts_nil, intersectEmpty]
    split_ifs with hp
    · simp [hp]
    · simpa [hp] using show empty.normalize = empty from rfl
  · rw [if_neg hempty, Option.map_eq_some_iff]
    constructor
    · rintro ⟨r, hr, hrb⟩ xs hxs
      obtain ⟨hrequires, hsettled⟩ := ha.requires.intersect hb.requires ha.settled hb.settled hr
      have hwf := hsettled.wellFormed hrequires.positive
      rw [← hrb, accepts_normalize hwf] at hxs
      exact ((hboth xs).mp ⟨r, hr, hxs⟩).1
    · intro h
      obtain ⟨ys, hys, -⟩ := hb.requires.exists_accepts_length hb.settled
      obtain ⟨r, hr, -⟩ := (hboth ys).mpr ⟨h ys hys, hys⟩
      obtain ⟨hrequires, hsettled⟩ := ha.requires.intersect hb.requires ha.settled hb.settled hr
      refine ⟨r, hr, ?_⟩
      rw [← hb.normal]
      apply hrequires.normalize_eq hb.requires hsettled hb.settled
      intro xs
      constructor
      · intro hxs
        exact ((hboth xs).mp ⟨r, hr, hxs⟩).2
      · intro hxs
        obtain ⟨r', hr', hxs⟩ := (hboth xs).mpr ⟨h xs hxs, hxs⟩
        rw [hr] at hr'
        cases hr'
        exact hxs

theorem compare_eq_none (agreement : Agreement) (labels : Labels) (a b : ArgList) :
    compare agreement labels a b = none ↔ agrees agreement a b = true := by
  rw [compare]
  split_ifs with h
  · simp [h]
  · cases firstDiscrepancy a b <;> simp [h]

end ArgList

end CatalogLint
