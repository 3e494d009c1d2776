import CatalogLint.ArgList.Basic
import CatalogLint.Proofs.Segment.Cells
import CatalogLint.Proofs.Sequence

/-!
# Argument lists position by position

`ArgList.cellAt` is what a list says of the argument at a position, whatever runs it is written
in. As a function of the position it is a lasso of cells. A well-formed list has no empty run and
admits some category everywhere, at every level of nesting.
-/
namespace CatalogLint
open Sequence

namespace ArgList

/-- What the list says of the argument at position `n`; none if the list ends before it. -/
def cellAt (l : ArgList) (n : ℕ) : Option Cell :=
  (l.argAt n).map Run.cell

theorem cellAt_eq_lasso (l : ArgList) :
    l.cellAt = lasso (Segment.cells l.initial) (Segment.cells l.repeated) := by
  funext n
  simp only [cellAt, argAt, lasso, turn, Segment.length_cells]
  split_ifs with h hfin
  · exact Segment.at?_map_cell _ _
  · rw [isFinite, List.isEmpty_iff] at hfin
    simp [hfin]
  · exact Segment.at?_map_cell _ _

/-- All runs of the list. -/
def runs (l : ArgList) : List Run :=
  l.initial ++ l.repeated

/-- No run is empty. -/
def Positive (l : ArgList) : Prop :=
  Segment.Positive l.initial ∧ Segment.Positive l.repeated

theorem positive_iff (l : ArgList) : l.Positive ↔ ∀ r ∈ l.runs, 0 < r.count := by
  rw [Positive, ← Segment.positive_append]
  rfl

theorem mem_runs_of_argAt {l : ArgList} {n : ℕ} {r : Run} (h : l.argAt n = some r) :
    r ∈ l.runs := by
  simp only [argAt] at h
  split_ifs at h
  · exact List.mem_append_left _ (Segment.mem_of_at? h)
  · exact List.mem_append_right _ (Segment.mem_of_at? h)

theorem mem_runs_of_cellAt {l : ArgList} {n : ℕ} {c : Cell} (h : l.cellAt n = some c) :
    ∃ r ∈ l.runs, r.cell = c := by
  rw [cellAt, Option.map_eq_some_iff] at h
  obtain ⟨r, hr, rfl⟩ := h
  exact ⟨r, mem_runs_of_argAt hr, rfl⟩

theorem exists_cellAt_of_mem_runs {l : ArgList} (h : l.Positive) {r : Run} (hr : r ∈ l.runs) :
    ∃ n, l.cellAt n = some r.cell := by
  rw [cellAt_eq_lasso]
  have hcells : r.cell ∈ Segment.cells l.initial ++ Segment.cells l.repeated := by
    rw [← Segment.cells_append]
    exact Segment.cell_mem_cells hr ((positive_iff l).mp h r hr)
  obtain ⟨n, hn, hget⟩ := List.mem_iff_getElem.mp hcells
  refine ⟨n, ?_⟩
  rw [← lasso_append_loop, lasso, if_pos hn, List.getElem?_eq_getElem hn, hget]

theorem cellAt_of_lt {l : ArgList} {n : ℕ} (h : n < Segment.extent l.initial) :
    l.cellAt n = (Segment.cells l.initial)[n]? := by
  rw [cellAt_eq_lasso, lasso, if_pos (by simpa using h)]

theorem exists_cellAt_of_le {l : ArgList} {m n : ℕ} {c : Cell} (h : l.cellAt n = some c)
    (hmn : m ≤ n) : ∃ d, l.cellAt m = some d := by
  rw [← Option.ne_none_iff_exists', cellAt_eq_lasso]
  apply lasso_ne_none _ hmn
  rw [← cellAt_eq_lasso, h]
  nofun

theorem lt_of_ends {l : ArgList} {m n : ℕ} {c : Cell} (h : l.cellAt n = none)
    (hc : l.cellAt m = some c) : m < n := by
  by_contra hle
  obtain ⟨d, hd⟩ := exists_cellAt_of_le hc (Nat.le_of_not_lt hle)
  rw [h] at hd
  cases hd

theorem exists_cellAt_of_loop {l : ArgList} (h : l.repeated ≠ []) (hl : l.Positive) (k : ℕ) :
    ∃ c, l.cellAt k = some c := by
  rw [← Option.ne_none_iff_exists', cellAt_eq_lasso, lasso]
  have hloop := (Segment.cells_eq_nil hl.2).not.mpr h
  split_ifs with hk
  · simpa using hk
  · exact turn_ne_none hloop _

theorem repeated_of_ends {l : ArgList} {n : ℕ} (hl : l.Positive) (h : l.cellAt n = none) :
    l.repeated = [] := by
  by_contra hne
  obtain ⟨c, hc⟩ := exists_cellAt_of_loop hne hl n
  rw [h] at hc
  cases hc

theorem cellAt_finite (s : Segment) (n : ℕ) : (finite s).cellAt n = (Segment.cells s)[n]? := by
  rw [cellAt_eq_lasso]
  exact lasso_nil_loop _ n

theorem firstPresence_eq {l : ArgList} (h : l.Positive) :
    l.firstPresence = (l.cellAt 0).map Cell.presence := by
  have hhead := Segment.head?_cells (Segment.positive_append.mpr h)
  have hcell : l.cellAt 0 = (Segment.cells (l.initial ++ l.repeated)).head? := by
    rw [Segment.cells_append, cellAt_eq_lasso, lasso_zero]
  rw [hcell, hhead, Option.map_map]
  rfl

/-- Every run has the property, in the list and in the lists of elements. -/
inductive Everywhere (P : Run → Prop) : ArgList → Prop
  | intro {l : ArgList} (here : ∀ r ∈ l.runs, P r)
      (elements : ∀ r ∈ l.runs, ∀ m, r.shape.elements? = some m → Everywhere P m) :
      Everywhere P l

theorem Everywhere.elements {P : Run → Prop} {l m : ArgList} {r : Run} (h : l.Everywhere P)
    (hr : r ∈ l.runs) (hm : r.shape.elements? = some m) : m.Everywhere P := by
  obtain ⟨-, elements⟩ := h
  exact elements r hr m hm

/-- No run is empty, and no type is. A compound type is never empty, even of categories. -/
def WellFormed : ArgList → Prop :=
  Everywhere fun r => 0 < r.count ∧ (r.shape.isCompound = false → r.shape.kinds.isEmpty = false)

theorem WellFormed.positive {l : ArgList} (h : l.WellFormed) : l.Positive := by
  obtain ⟨here, -⟩ := h
  exact (positive_iff l).mpr fun r hr => (here r hr).1

theorem WellFormed.elements {l m : ArgList} {r : Run} (h : l.WellFormed) (hr : r ∈ l.runs)
    (hm : r.shape.elements? = some m) : m.WellFormed :=
  Everywhere.elements h hr hm

end ArgList

theorem Run.depth_eq (r : Run) : r.depth = r.shape.depth := by
  cases r
  rfl

theorem Run.depth_le_of_mem {r : Run} {s : List Run} (h : r ∈ s) :
    r.shape.depth ≤ Run.depthList s := by
  induction s with
  | nil => cases h
  | cons q s ih =>
      rw [Run.depthList, Run.depth_eq]
      rcases List.mem_cons.mp h with rfl | h
      · exact Nat.le_max_left _ _
      · exact (ih h).trans (Nat.le_max_right _ _)

theorem Shape.depth_elements {s : Shape} {m : ArgList} (h : s.elements? = some m) :
    s.depth = m.depth + 1 := by
  cases s with
  | plain k => cases h
  | compound k i r =>
      cases h
      rfl

theorem ArgList.depth_lt_of_mem {l m : ArgList} {r : Run} (hr : r ∈ l.runs)
    (hm : r.shape.elements? = some m) : m.depth < l.depth := by
  have hd : r.shape.depth ≤ l.depth := by
    rcases List.mem_append.mp hr with hr | hr
    · exact (Run.depth_le_of_mem hr).trans (Nat.le_max_left _ _)
    · exact (Run.depth_le_of_mem hr).trans (Nat.le_max_right _ _)
  rw [Shape.depth_elements hm] at hd
  exact hd

section Deciding
variable (P : Run → Prop) [DecidablePred P]

mutual

/-- Decides a property of all runs of all elements. -/
def Shape.all : Shape → Bool
  | .plain _ => true
  | .compound _ i r => Run.allList i && Run.allList r

def Run.all : Run → Bool
  | ⟨n, p, s⟩ => P ⟨n, p, s⟩ && s.all

def Run.allList : List Run → Bool
  | [] => true
  | r :: s => r.all && Run.allList s

end

variable {P}

theorem Run.allList_iff (s : List Run) :
    Run.allList P s = true ↔ ∀ r ∈ s, P r ∧ r.shape.all P = true := by
  induction s with
  | nil => simp [Run.allList]
  | cons r s ih => cases r; simp [Run.allList, Run.all, ih]

theorem Run.allList_append (s t : List Run) :
    Run.allList P (s ++ t) = (Run.allList P s && Run.allList P t) := by
  induction s with
  | nil => rfl
  | cons r s ih => rw [List.cons_append, Run.allList, ih, Run.allList, Bool.and_assoc]

theorem Shape.all_iff (s : Shape) :
    s.all P = true ↔ ∀ m, s.elements? = some m → Run.allList P m.runs = true := by
  cases s with
  | plain k => simp [Shape.all, Shape.elements?]
  | compound k i r =>
      simp [Shape.all, Shape.elements?, ArgList.runs, Run.allList_append]

theorem ArgList.allList_of_everywhere {l : ArgList} (h : l.Everywhere P) :
    Run.allList P l.runs = true := by
  induction h with
  | intro here elements ih =>
      exact (Run.allList_iff _).mpr fun r hr => ⟨here r hr, (Shape.all_iff _).mpr (ih r hr)⟩

theorem ArgList.everywhere_of_allList (d : ℕ) {l : ArgList} (hd : l.depth ≤ d)
    (h : Run.allList P l.runs = true) : l.Everywhere P := by
  have here := (Run.allList_iff _).mp h
  induction d generalizing l with
  | zero =>
      refine .intro (fun r hr => (here r hr).1) fun r hr m hm => ?_
      have := depth_lt_of_mem hr hm
      omega
  | succ d ih =>
      refine .intro (fun r hr => (here r hr).1) fun r hr m hm => ?_
      have hm' := (Shape.all_iff _).mp (here r hr).2 m hm
      have := depth_lt_of_mem hr hm
      exact ih (by omega) hm' ((Run.allList_iff _).mp hm')

instance (l : ArgList) : Decidable (l.Everywhere P) :=
  decidable_of_iff (Run.allList P l.runs = true)
    ⟨ArgList.everywhere_of_allList l.depth (Nat.le_refl _), ArgList.allList_of_everywhere⟩

instance (l : ArgList) : Decidable l.WellFormed :=
  inferInstanceAs (Decidable (l.Everywhere _))

end Deciding

end CatalogLint
