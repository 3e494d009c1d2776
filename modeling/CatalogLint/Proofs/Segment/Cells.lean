import CatalogLint.Argument.Segment
import Mathlib.Data.List.Chain

/-!
# The cells of a segment

`Segment.cells` writes a segment out, one cell for each argument. Positions of arguments are
positions in this list: cutting a segment cuts the list, merging runs does not change it, and a
countdown along the runs goes by the first elements of the list. Once merged, the runs are
determined by the cells (`Segment.cells_injective`).
-/
namespace CatalogLint

/-- What a run says of each of its arguments. -/
structure Cell where
  presence : Presence
  shape : Shape
  deriving DecidableEq, Repr

def Run.cell (r : Run) : Cell :=
  ⟨r.presence, r.shape⟩

@[simp] theorem Run.cell_withCount (r : Run) (n : ℕ) : (r.withCount n).cell = r.cell := rfl

@[simp] theorem Run.count_withCount (r : Run) (n : ℕ) : (r.withCount n).count = n := rfl

@[simp] theorem Run.withCount_self (r : Run) : r.withCount r.count = r := by
  cases r
  rfl

@[simp] theorem Run.same_iff (a b : Run) : a.same b = true ↔ a.cell = b.cell := by
  simp [Run.same, Run.cell]

theorem Run.ext_cell {a b : Run} (hc : a.count = b.count) (h : a.cell = b.cell) : a = b := by
  cases a
  cases b
  simp_all [Run.cell]

namespace Segment

/-- The constraints of the arguments, one after the other. -/
def cells : Segment → List Cell
  | [] => []
  | r :: s => List.replicate r.count r.cell ++ cells s

/-- No run is empty. -/
def Positive (s : Segment) : Prop :=
  ∀ r ∈ s, 0 < r.count

/-- Neighbouring runs differ by more than their counts. -/
def Coalesced (s : Segment) : Prop :=
  List.IsChain (fun a b => a.cell ≠ b.cell) s

@[simp] theorem cells_nil : cells [] = [] := rfl

@[simp] theorem cells_cons (r : Run) (s : Segment) :
    cells (r :: s) = List.replicate r.count r.cell ++ cells s := rfl

theorem cells_append (s t : Segment) : cells (s ++ t) = cells s ++ cells t := by
  induction s with
  | nil => rfl
  | cons r s ih => rw [List.cons_append, cells_cons, ih, cells_cons, List.append_assoc]

theorem cells_power (s : Segment) (k : ℕ) :
    cells (List.replicate k s).flatten = (List.replicate k (cells s)).flatten := by
  induction k with
  | zero => rfl
  | succ k ih => simp only [List.replicate_succ, List.flatten_cons, cells_append, ih]

@[simp] theorem length_cells (s : Segment) : (cells s).length = extent s := by
  induction s with
  | nil => rfl
  | cons r s ih => simp [ih, extent]

theorem cells_cons_pos {r : Run} (s : Segment) (h : 0 < r.count) :
    cells (r :: s) = r.cell :: (List.replicate (r.count - 1) r.cell ++ cells s) := by
  obtain ⟨k, hk⟩ := Nat.exists_eq_add_of_lt h
  simp [hk, List.replicate_succ]

theorem cells_cons_sub {r : Run} (s : Segment) {n : ℕ} (h : n ≤ r.count) :
    cells (r :: s) = List.replicate n r.cell ++ cells (r.withCount (r.count - n) :: s) := by
  rw [cells_cons, cells_cons, Run.cell_withCount, Run.count_withCount, ← List.append_assoc,
    List.replicate_append_replicate, Nat.add_sub_cancel' h]

theorem cell_mem_cells {r : Run} {s : Segment} (h : r ∈ s) (hr : 0 < r.count) :
    r.cell ∈ cells s := by
  induction s with
  | nil => cases h
  | cons q s ih =>
      rw [cells_cons, List.mem_append]
      rcases List.mem_cons.mp h with rfl | h
      · exact .inl (List.mem_replicate.mpr ⟨Nat.ne_of_gt hr, rfl⟩)
      · exact .inr (ih h)

theorem extent_append (s t : Segment) : extent (s ++ t) = extent s + extent t := by
  rw [← length_cells, cells_append, List.length_append, length_cells, length_cells]

theorem at?_map_cell (s : Segment) (n : ℕ) : (at? s n).map Run.cell = (cells s)[n]? := by
  induction s generalizing n with
  | nil => rfl
  | cons r s ih =>
      rw [at?, cells_cons]
      by_cases h : n < r.count
      · rw [if_pos h, List.getElem?_append_left (by simpa using h), List.getElem?_replicate,
          if_pos h]
        rfl
      · rw [if_neg h, ih, List.getElem?_append_right (by simpa using h), List.length_replicate]

theorem mem_of_at? {s : Segment} {n : ℕ} {r : Run} (h : at? s n = some r) : r ∈ s := by
  induction s generalizing n with
  | nil => cases h
  | cons q s ih =>
      rw [at?] at h
      split at h
      · cases h
        exact List.mem_cons_self
      · exact List.mem_cons_of_mem q (ih h)

theorem cells_takeArgs (n : ℕ) (s : Segment) : cells (takeArgs n s) = (cells s).take n := by
  induction s generalizing n with
  | nil => simp [takeArgs]
  | cons r s ih =>
      rw [takeArgs, cells_cons, List.take_append, List.take_replicate, List.length_replicate]
      by_cases h₀ : n = 0
      · simp [h₀]
      by_cases h : n < r.count
      · simp [h₀, h, Nat.min_eq_left h.le, Nat.sub_eq_zero_of_le h.le]
      · rw [if_neg h₀, if_neg h, cells_cons, ih, Nat.min_eq_right (Nat.le_of_not_lt h)]

theorem cells_dropArgs (n : ℕ) (s : Segment) : cells (dropArgs n s) = (cells s).drop n := by
  induction s generalizing n with
  | nil => simp [dropArgs]
  | cons r s ih =>
      rw [dropArgs, cells_cons, List.drop_append, List.drop_replicate, List.length_replicate]
      by_cases h : n < r.count
      · simp [h, Nat.sub_eq_zero_of_le h.le]
      · rw [if_neg h, ih, Nat.sub_eq_zero_of_le (Nat.le_of_not_lt h)]
        rfl

theorem cells_takeArgs_append (n : ℕ) (s : Segment) :
    cells (takeArgs n s) ++ cells (dropArgs n s) = cells s := by
  rw [cells_takeArgs, cells_dropArgs, List.take_append_drop]

theorem length_cells_takeArgs {n : ℕ} {s : Segment} (h : n ≤ extent s) :
    (cells (takeArgs n s)).length = n := by
  rw [cells_takeArgs, List.length_take, length_cells, Nat.min_eq_left h]

section Positive
variable {r : Run} {s t : Segment}

theorem positive_nil : Positive [] := nofun

theorem positive_cons : Positive (r :: s) ↔ 0 < r.count ∧ Positive s := by
  simp [Positive]

theorem positive_append : Positive (s ++ t) ↔ Positive s ∧ Positive t := by
  simp only [Positive, List.mem_append, or_imp, forall_and]

theorem Positive.power (h : Positive s) (k : ℕ) : Positive (List.replicate k s).flatten := by
  intro r hr
  obtain ⟨l, hl, hr⟩ := List.mem_flatten.mp hr
  exact h r (List.eq_of_mem_replicate hl ▸ hr)

theorem Positive.takeArgs (h : Positive s) (n : ℕ) : Positive (takeArgs n s) := by
  induction s generalizing n with
  | nil => exact h
  | cons r s ih =>
      obtain ⟨hr, hs⟩ := positive_cons.mp h
      rw [Segment.takeArgs]
      split_ifs with h₀ hn
      · exact positive_nil
      · exact positive_cons.mpr ⟨Nat.pos_of_ne_zero h₀, positive_nil⟩
      · exact positive_cons.mpr ⟨hr, ih hs _⟩

theorem Positive.dropArgs (h : Positive s) (n : ℕ) : Positive (dropArgs n s) := by
  induction s generalizing n with
  | nil => exact h
  | cons r s ih =>
      obtain ⟨hr, hs⟩ := positive_cons.mp h
      rw [Segment.dropArgs]
      split_ifs with hn
      · exact positive_cons.mpr ⟨Nat.sub_pos_of_lt hn, hs⟩
      · exact ih hs _

theorem cells_eq_nil (h : Positive s) : cells s = [] ↔ s = [] := by
  cases s with
  | nil => simp
  | cons r s =>
      have := (positive_cons.mp h).1
      simp [Nat.ne_of_gt this]

theorem extent_eq_zero (h : Positive s) : extent s = 0 ↔ s = [] := by
  rw [← cells_eq_nil h, ← List.length_eq_zero_iff, length_cells]

theorem eq_nil_of_extent_eq (hs : Positive s) (ht : Positive t) (h : s = [] ∨ t = [])
    (he : extent s = extent t) : s = [] ∧ t = [] := by
  rcases h with rfl | rfl
  · exact ⟨rfl, (extent_eq_zero ht).mp he.symm⟩
  · exact ⟨(extent_eq_zero hs).mp he, rfl⟩

theorem head?_cells (h : Positive s) : (cells s).head? = s.head?.map Run.cell := by
  cases s with
  | nil => rfl
  | cons r s =>
      obtain ⟨n, hn⟩ := Nat.exists_eq_add_of_lt (positive_cons.mp h).1
      simp [hn, List.replicate_succ]

theorem getLast?_cells (h : Positive s) : (cells s).getLast? = s.getLast?.map Run.cell := by
  induction s using List.reverseRecOn with
  | nil => rfl
  | append_singleton s r _ =>
      obtain ⟨n, hn⟩ := Nat.exists_eq_add_of_lt
        (positive_cons.mp (positive_append.mp h).2).1
      simp [cells_append, hn, List.replicate_succ']

theorem forall_mem_cells (hs : Positive s) (P : Cell → Prop) :
    (∀ c ∈ cells s, P c) ↔ ∀ r ∈ s, P r.cell := by
  refine ⟨fun h r hr => h _ (cell_mem_cells hr (hs r hr)), fun h => ?_⟩
  induction s with
  | nil => nofun
  | cons r s ih =>
      obtain ⟨-, hs⟩ := positive_cons.mp hs
      obtain ⟨hr, h⟩ := List.forall_mem_cons.mp h
      rw [cells_cons, List.forall_mem_append]
      exact ⟨fun c hc => List.eq_of_mem_replicate hc ▸ hr, ih hs h⟩

end Positive

section Counting
variable {r : Run} {s : Segment} {n : ℕ}

theorem forall_mem_take_cells_cons (hr : 0 < r.count) (hn : 0 < n) (P : Cell → Prop) :
    (∀ c ∈ (cells (r :: s)).take n, P c) ↔
      P r.cell ∧ ∀ c ∈ (cells s).take (n - r.count), P c := by
  have hmin : min n r.count ≠ 0 := by omega
  rw [cells_cons, List.take_append, List.forall_mem_append, List.take_replicate,
    List.length_replicate, List.forall_mem_replicate, or_iff_right hmin]

/-- The countdown ends at an argument that is not required, or has gone down by as many arguments
as there are. -/
theorem uncovered_eq (hs : Positive s) (hn : 0 < n) :
    uncovered s n =
      if ∀ c ∈ (cells s).take n, c.presence = .required then some (n - extent s) else none := by
  induction s generalizing n with
  | nil => simp [uncovered, extent]
  | cons r s ih =>
      obtain ⟨hr, hs⟩ := positive_cons.mp hs
      rw [uncovered, Run.isRequired, extent, ← Nat.sub_sub]
      simp only [forall_mem_take_cells_cons hr hn, decide_eq_true_eq]
      by_cases hreq : r.presence = .required
      · have hcell : r.cell.presence = .required := hreq
        simp only [hreq, hcell, if_true, true_and]
        split_ifs with hle hrest hrest
        · rw [Nat.sub_eq_zero_of_le hle, Nat.zero_sub]
        · rw [Nat.sub_eq_zero_of_le hle, List.take_zero] at hrest
          exact absurd (List.forall_mem_nil _) hrest
        · rw [ih hs (by omega), if_pos hrest]
        · rw [ih hs (by omega), if_neg hrest]
      · rw [if_neg hreq, if_neg fun h => hreq h.1]

end Counting

section Coalescing
variable {r : Run} {s t : Segment}

theorem cells_coalesce (s : Segment) : cells (coalesce s) = cells s := by
  induction s with
  | nil => rfl
  | cons r s ih =>
      rw [coalesce, cells_cons, ← ih]
      cases coalesce s with
      | nil => rfl
      | cons q t =>
          simp only [Run.same_iff]
          split_ifs with h
          · rw [cells_cons, cells_cons, Run.cell_withCount, Run.count_withCount,
              List.replicate_add, List.append_assoc, h]
          · rfl

theorem Positive.coalesce (h : Positive s) : Positive (coalesce s) := by
  induction s with
  | nil => exact h
  | cons r s ih =>
      obtain ⟨hr, hs⟩ := positive_cons.mp h
      have ih := ih hs
      rw [Segment.coalesce]
      cases hc : Segment.coalesce s with
      | nil => exact positive_cons.mpr ⟨hr, positive_nil⟩
      | cons q t =>
          rw [hc] at ih
          have ht := (positive_cons.mp ih).2
          simp only
          split_ifs
          · exact positive_cons.mpr ⟨Nat.add_pos_left hr _, ht⟩
          · exact positive_cons.mpr ⟨hr, ih⟩

theorem coalesced_coalesce (s : Segment) : Coalesced (coalesce s) := by
  induction s with
  | nil => exact .nil
  | cons r s ih =>
      rw [coalesce]
      cases hc : coalesce s with
      | nil => exact .singleton r
      | cons q t =>
          rw [hc] at ih
          simp only [Run.same_iff]
          split_ifs with h
          · cases t with
            | nil => exact .singleton _
            | cons p t =>
                obtain ⟨hqp, ht⟩ := List.isChain_cons_cons.mp ih
                exact List.isChain_cons_cons.mpr ⟨by simpa [h] using hqp, ht⟩
          · exact List.isChain_cons_cons.mpr ⟨h, ih⟩

theorem Coalesced.head?_ne (h : Coalesced (r :: s)) (hs : Positive s) :
    (cells s).head? ≠ some r.cell := by
  cases s with
  | nil => simp
  | cons q s =>
      rw [head?_cells hs]
      simpa using (List.isChain_cons_cons.mp h).1.symm

theorem count_le_of_cells_eq {q : Run} (hr : Coalesced (r :: s)) (hs : Positive s)
    (hc : r.cell = q.cell) (h : cells (r :: s) = cells (q :: t)) : q.count ≤ r.count := by
  by_contra hlt
  obtain ⟨k, hk⟩ := Nat.exists_eq_add_of_lt (Nat.lt_of_not_le hlt)
  apply hr.head?_ne hs
  rw [cells_cons, cells_cons, hk, Nat.add_assoc, List.replicate_add, ← hc, List.append_assoc]
    at h
  rw [List.append_cancel_left h, List.replicate_succ]
  rfl

/-- Merged runs are the only way to write a segment. -/
theorem cells_injective (hs : Positive s) (ht : Positive t) (hsc : Coalesced s)
    (htc : Coalesced t) (h : cells s = cells t) : s = t := by
  induction s generalizing t with
  | nil => exact ((cells_eq_nil ht).mp h.symm).symm
  | cons r s ih =>
      cases t with
      | nil => exact absurd ((cells_eq_nil hs).mp h) (List.cons_ne_nil r s)
      | cons q t =>
          have hcell : r.cell = q.cell := by
            have := congrArg List.head? h
            rw [head?_cells hs, head?_cells ht] at this
            simpa using this
          obtain ⟨-, hs⟩ := positive_cons.mp hs
          obtain ⟨-, ht⟩ := positive_cons.mp ht
          have hcount : r.count = q.count := Nat.le_antisymm
            (count_le_of_cells_eq htc ht hcell.symm h.symm) (count_le_of_cells_eq hsc hs hcell h)
          rw [cells_cons, cells_cons, hcount, hcell] at h
          rw [Run.ext_cell hcount hcell, ih hs ht hsc.tail htc.tail (List.append_cancel_left h)]

end Coalescing

/-- The segment of some constraints, merged. -/
def ofCells (w : List Cell) : Segment :=
  coalesce (w.map fun c => ⟨1, c.presence, c.shape⟩)

theorem cells_ofCells (w : List Cell) : cells (ofCells w) = w := by
  rw [ofCells, cells_coalesce]
  induction w with
  | nil => rfl
  | cons c w ih =>
      rw [List.map_cons, cells_cons, ih]
      rfl

theorem positive_ofCells (w : List Cell) : Positive (ofCells w) := by
  apply Positive.coalesce
  intro r hr
  obtain ⟨c, -, rfl⟩ := List.mem_map.mp hr
  exact Nat.one_pos

theorem coalesced_ofCells (w : List Cell) : Coalesced (ofCells w) :=
  coalesced_coalesce _

end Segment

end CatalogLint
