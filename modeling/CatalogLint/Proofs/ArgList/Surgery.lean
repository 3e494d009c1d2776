import CatalogLint.ArgList.Surgery
import CatalogLint.Proofs.ArgList.View

/-!
# Changes of representation

Unfolding, rotating, splitting and unsharing keep every cell of a list, and keep its runs from
being empty. What they are done for is stated as extents: of the loop, and of the initial segment.
-/
namespace CatalogLint
open Sequence

theorem Sequence.lasso_replicate_turn {α : Type} (c : α) (m : ℕ) {k : ℕ} (hk : 0 < k) :
    lasso (List.replicate m c) (List.replicate k c) = turn (List.replicate k c) := by
  funext n
  have hturn : ∀ n, turn (List.replicate k c) n = some c := by
    intro n
    rw [turn, List.length_replicate, List.getElem?_replicate, if_pos (Nat.mod_lt n hk)]
  by_cases h : n < m
  · rw [lasso, List.length_replicate, if_pos h, List.getElem?_replicate, if_pos h, hturn]
  · rw [lasso, List.length_replicate, if_neg h, hturn, hturn]

namespace ArgList
variable {l : ArgList}

theorem isFinite_iff : l.isFinite = true ↔ l.repeated = [] := by
  rw [isFinite, List.isEmpty_iff]

theorem Positive.isFinite_eq (h : l.Positive) :
    l.isFinite = true ↔ Segment.extent l.repeated = 0 := by
  rw [isFinite_iff, Segment.extent_eq_zero h.2]

section Unfold

theorem cellAt_unfold (l : ArgList) (m : ℕ) : (l.unfold m).cellAt = l.cellAt := by
  unfold unfold
  split_ifs with h
  · rfl
  · funext n
    rw [cellAt_eq_lasso, cellAt_eq_lasso, Segment.cells_power]
    simp only [lasso, turn_power (Nat.lt_of_lt_of_le Nat.one_pos (Nat.le_of_not_le h))]

theorem Positive.unfold (h : l.Positive) (m : ℕ) : (l.unfold m).Positive := by
  unfold ArgList.unfold
  split_ifs
  · exact h
  · exact ⟨h.1, h.2.power m⟩

@[simp] theorem initial_unfold (l : ArgList) (m : ℕ) : (l.unfold m).initial = l.initial := by
  unfold unfold
  split_ifs <;> rfl

theorem extent_unfold (l : ArgList) (m : ℕ) :
    Segment.extent (l.unfold m).repeated = max m 1 * Segment.extent l.repeated := by
  unfold unfold
  split_ifs with h
  · rw [Nat.max_eq_right h, Nat.one_mul]
  · rw [← Segment.length_cells, Segment.cells_power, length_power, Segment.length_cells,
      Nat.max_eq_left (Nat.le_of_not_le h)]

theorem unfold_of_finite (h : l.repeated = []) (m : ℕ) : l.unfold m = l := by
  obtain ⟨initial, repeated⟩ := l
  obtain rfl : repeated = [] := h
  simp [unfold]

end Unfold

section Rotate

theorem cellAt_rotate (h : l.Positive) (m : ℕ) : (l.rotate m).cellAt = l.cellAt := by
  unfold rotate
  dsimp only
  split
  · rfl
  · next r hr =>
      split_ifs
      · rfl
      · have hpos : 0 < r.count := h.2 r (by simp [hr])
        have hlate := lasso_replicate_turn r.cell (m - Segment.extent l.initial) hpos
        rw [← lasso_nil] at hlate
        simpa [cellAt_eq_lasso, Segment.cells_append, hr] using
          lasso_congr (Segment.cells l.initial) hlate
  · set v := Segment.cells l.repeated with hv
    set s := (m - Segment.extent l.initial) % Segment.extent l.repeated
    have hturn : lasso (v.take s) (v.drop s ++ v.take s) = turn v := by
      rw [lasso_append_self, List.take_append_drop]
    have hlate := lasso_power_append hturn
      ((m - Segment.extent l.initial) / Segment.extent l.repeated)
    rw [← lasso_nil] at hlate
    simpa [cellAt_eq_lasso, Segment.cells_append, Segment.cells_power, Segment.cells_takeArgs,
      Segment.cells_dropArgs, ← hv] using lasso_congr (Segment.cells l.initial) hlate

theorem Positive.rotate (h : l.Positive) (m : ℕ) : (l.rotate m).Positive := by
  unfold ArgList.rotate
  dsimp only
  split
  · exact h
  · next r hr =>
      split_ifs with hm
      · exact h
      · refine ⟨Segment.positive_append.mpr ⟨h.1, ?_⟩, h.2⟩
        exact Segment.positive_cons.mpr ⟨Nat.pos_of_ne_zero hm, Segment.positive_nil⟩
  · refine ⟨?_, Segment.positive_append.mpr ⟨h.2.dropArgs _, h.2.takeArgs _⟩⟩
    exact Segment.positive_append.mpr ⟨Segment.positive_append.mpr ⟨h.1, h.2.power _⟩,
      h.2.takeArgs _⟩

theorem extent_repeated_rotate (l : ArgList) (m : ℕ) :
    Segment.extent (l.rotate m).repeated = Segment.extent l.repeated := by
  unfold rotate
  dsimp only
  split
  · rfl
  · split_ifs <;> rfl
  · simp only [← Segment.length_cells, Segment.cells_append, Segment.cells_takeArgs,
      Segment.cells_dropArgs, List.length_append, List.length_take, List.length_drop]
    omega

theorem extent_initial_rotate (h : l.Positive) (hl : l.isFinite = false) (m : ℕ) :
    Segment.extent (l.rotate m).initial = max m (Segment.extent l.initial) := by
  have hpos : 0 < Segment.extent l.repeated := by
    have := (h.isFinite_eq).not.mp (by simp [hl])
    omega
  unfold rotate
  dsimp only
  split
  · next hr => simp [isFinite, hr] at hl
  · split_ifs with hm
    · omega
    · rw [Segment.extent_append]
      simp only [Segment.extent, Run.count_withCount]
      omega
  · have hlt := Nat.mod_lt (m - Segment.extent l.initial) hpos
    have hdiv := Nat.div_add_mod (m - Segment.extent l.initial) (Segment.extent l.repeated)
    simp only [← Segment.length_cells, Segment.cells_append, Segment.cells_power,
      Segment.cells_takeArgs, List.length_append, length_power, List.length_take]
    simp only [Segment.length_cells, Nat.mul_comm] at hlt hdiv ⊢
    omega

@[simp] theorem isFinite_rotate (h : l.Positive) (m : ℕ) :
    (l.rotate m).isFinite = l.isFinite := by
  rw [Bool.eq_iff_iff, (h.rotate m).isFinite_eq, extent_repeated_rotate, h.isFinite_eq]

theorem rotate_of_finite (h : l.repeated = []) (m : ℕ) : l.rotate m = l := by
  simp only [rotate, h]

end Rotate

/-- A finite list has that many arguments; a list with a loop can be written out that far. -/
def Reaches (l : ArgList) (n : ℕ) : Prop :=
  l.isFinite = true → n ≤ Segment.extent l.initial

theorem reaches_of_cellAt {n : ℕ} {c : Cell} (h : l.cellAt n = some c) : l.Reaches (n + 1) := by
  intro hfin
  rw [cellAt_eq_lasso, isFinite_iff.mp hfin, Segment.cells_nil, lasso_nil_loop] at h
  have := (List.getElem?_eq_some_iff.mp h).1
  rwa [Segment.length_cells] at this

theorem cellAt_eq_none_iff (h : l.Positive) {n : ℕ} :
    l.cellAt n = none ↔ l.isFinite = true ∧ Segment.extent l.initial ≤ n := by
  constructor
  · intro hnone
    have hloop := repeated_of_ends h hnone
    rw [cellAt_eq_lasso, hloop, Segment.cells_nil, lasso_nil_loop, List.getElem?_eq_none_iff,
      Segment.length_cells] at hnone
    exact ⟨isFinite_iff.mpr hloop, hnone⟩
  · rintro ⟨hfin, hle⟩
    rw [cellAt_eq_lasso, isFinite_iff.mp hfin, Segment.cells_nil, lasso_nil_loop]
    exact List.getElem?_eq_none (by simpa using hle)

theorem reaches_iff (h : l.Positive) {n : ℕ} :
    l.Reaches (n + 1) ↔ ∃ c, l.cellAt n = some c := by
  refine ⟨fun hr => ?_, fun ⟨_, hc⟩ => reaches_of_cellAt hc⟩
  rw [← Option.ne_none_iff_exists', Ne, cellAt_eq_none_iff h]
  rintro ⟨hfin, hle⟩
  exact Nat.not_succ_le_self n ((hr hfin).trans hle)

theorem Reaches.mono {m n : ℕ} (h : l.Reaches n) (hmn : m ≤ n) : l.Reaches m :=
  fun hfin => hmn.trans (h hfin)

section Split

/-- The list, written out as far as needed. -/
def stretch (l : ArgList) (n : ℕ) : ArgList :=
  if Segment.extent l.initial < n then l.rotate n else l

theorem cellAt_stretch (h : l.Positive) (n : ℕ) : (l.stretch n).cellAt = l.cellAt := by
  unfold stretch
  split_ifs
  · exact cellAt_rotate h n
  · rfl

theorem Positive.stretch (h : l.Positive) (n : ℕ) : (l.stretch n).Positive := by
  unfold ArgList.stretch
  split_ifs
  · exact h.rotate n
  · exact h

theorem isFinite_stretch (h : l.Positive) (n : ℕ) : (l.stretch n).isFinite = l.isFinite := by
  unfold stretch
  split_ifs
  · exact isFinite_rotate h n
  · rfl

theorem le_extent_stretch (h : l.Positive) {n : ℕ} (hr : l.Reaches n) :
    n ≤ Segment.extent (l.stretch n).initial := by
  unfold stretch
  split_ifs with hlt
  · cases hfin : l.isFinite with
    | true =>
        have := hr hfin
        omega
    | false =>
        rw [extent_initial_rotate h hfin]
        exact Nat.le_max_left _ _
  · omega

/-- Cutting runs of the initial segment in two changes no cell. -/
theorem cellAt_of_cells {l m : ArgList} (hi : Segment.cells l.initial = Segment.cells m.initial)
    (hr : l.repeated = m.repeated) : l.cellAt = m.cellAt := by
  rw [cellAt_eq_lasso, cellAt_eq_lasso, hi, hr]

theorem cells_split (l : ArgList) (n : ℕ) :
    Segment.cells (l.split n).initial = Segment.cells (l.stretch n).initial := by
  unfold split stretch
  simp only [Segment.cells_append, Segment.cells_takeArgs, Segment.cells_dropArgs,
    List.take_append_drop]

theorem repeated_split (l : ArgList) (n : ℕ) :
    (l.split n).repeated = (l.stretch n).repeated := rfl

theorem cellAt_split (h : l.Positive) (n : ℕ) : (l.split n).cellAt = l.cellAt := by
  rw [cellAt_of_cells (cells_split l n) (repeated_split l n), cellAt_stretch h]

theorem Positive.split (h : l.Positive) (n : ℕ) : (l.split n).Positive := by
  have hs := h.stretch n
  refine ⟨Segment.positive_append.mpr ⟨hs.1.takeArgs n, hs.1.dropArgs n⟩, ?_⟩
  rw [repeated_split]
  exact hs.2

theorem isFinite_split (h : l.Positive) (n : ℕ) : (l.split n).isFinite = l.isFinite :=
  isFinite_stretch h n

theorem le_extent_split (h : l.Positive) {n : ℕ} (hr : l.Reaches n) :
    n ≤ Segment.extent (l.split n).initial := by
  rw [← Segment.length_cells, cells_split, Segment.length_cells]
  exact le_extent_stretch h hr

theorem cells_unshare (l : ArgList) (n : ℕ) :
    Segment.cells (l.unshare n).initial = Segment.cells (l.stretch (n + 1)).initial := by
  unfold unshare stretch
  simp only [Nat.lt_succ_iff, Segment.cells_append, Segment.cells_takeArgs,
    Segment.cells_dropArgs, List.append_assoc, List.take_append_drop]

theorem repeated_unshare (l : ArgList) (n : ℕ) :
    (l.unshare n).repeated = (l.stretch (n + 1)).repeated := by
  unfold unshare stretch
  simp only [Nat.lt_succ_iff]

theorem cellAt_unshare (h : l.Positive) (n : ℕ) : (l.unshare n).cellAt = l.cellAt := by
  rw [cellAt_of_cells (cells_unshare l n) (repeated_unshare l n), cellAt_stretch h]

theorem Positive.unshare (h : l.Positive) (n : ℕ) : (l.unshare n).Positive := by
  have hs := h.stretch (n + 1)
  unfold ArgList.stretch at hs
  unfold ArgList.unshare
  simp only [Nat.lt_succ_iff] at hs
  refine ⟨?_, hs.2⟩
  exact Segment.positive_append.mpr ⟨Segment.positive_append.mpr ⟨hs.1.takeArgs n,
    (hs.1.dropArgs n).takeArgs 1⟩, (hs.1.dropArgs n).dropArgs 1⟩

theorem lt_extent_unshare (h : l.Positive) {n : ℕ} (hr : l.Reaches (n + 1)) :
    n < Segment.extent (l.unshare n).initial := by
  rw [← Segment.length_cells, cells_unshare, Segment.length_cells]
  exact le_extent_stretch h hr

theorem Reaches.split {n : ℕ} (hr : l.Reaches n) (h : l.Positive) (m : ℕ) :
    (l.split m).Reaches n := by
  intro hfin
  rw [isFinite_split h] at hfin
  have hstretch : l.stretch m = l := by
    unfold stretch
    rw [rotate_of_finite (isFinite_iff.mp hfin), ite_self]
  rw [← Segment.length_cells, cells_split, hstretch, Segment.length_cells]
  exact hr hfin

end Split

end ArgList

end CatalogLint
