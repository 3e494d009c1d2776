import CatalogLint.Proofs.ArgList.Walk

/-!
# Intersections

Intersecting two lists yields the cells that they have in common, up to the first impossible one
(`outcome_intersectWith`, for any way of meeting shapes); so it accepts what both lists accept as
soon as shapes meet in what fits both. Shapes do, as long as every compound shape describes either
sequences or tables, by induction on the nesting (`accepts_intersect`).
-/
namespace CatalogLint
open Sequence

namespace ArgList

/-- How two lists with these cells intersect. Either all cells meet, and the list has what they
have in common. Or the cells of a segment meet and then two do not, so that the list ends there. -/
inductive Outcome (meet : Shape → Shape → Option Shape) (f g : ℕ → Option Cell) :
    Option ArgList → Prop
  | looped {l : ArgList} (positive : l.Positive)
      (cells : ∀ n, l.cellAt n = Cell.common meet (f n) (g n))
      (met : ∀ n, Cell.Meets meet (f n) (g n)) : Outcome meet f g (some l)
  | ended {s : Segment} {p : Option Presence} (positive : Segment.Positive s)
      (cells : ∀ n ≤ Segment.extent s,
        (Segment.cellsBefore s p)[n]? = Cell.common meet (f n) (g n))
      (met : ∀ n < Segment.extent s, Cell.Meets meet (f n) (g n)) :
      Outcome meet f g (endBefore s p)

theorem getElem?_cellsBefore_extent (s : Segment) (p : Option Presence) :
    (Segment.cellsBefore s p)[Segment.extent s]? = p.map fun p => ⟨p, .nothing⟩ := by
  rw [← Segment.length_cells, Segment.cellsBefore, List.getElem?_append_right (Nat.le_refl _),
    Nat.sub_self]
  cases p <;> rfl

theorem Outcome.accepts {meet : Shape → Shape → Option Shape} {f g : ℕ → Option Cell}
    {o : Option ArgList} (ho : Outcome meet f g o) (xs : List Value) :
    (∃ l ∈ o.map normalizeOutermost, l.Accepts xs) ↔
      Follows xs fun n => Cell.common meet (f n) (g n) := by
  have hnormal : ∀ l : ArgList, l.Positive → (l.normalizeOutermost.Accepts xs ↔ l.Accepts xs) := by
    intro l hl
    rw [accepts_iff_follows, accepts_iff_follows, cellAt_normalizeOutermost hl]
  cases ho with
  | @looped l positive cells met =>
      simp only [Option.map_some, Option.mem_def, Option.some.injEq, exists_eq_left']
      rw [hnormal l positive, accepts_iff_follows, funext cells]
  | @ended s p positive cells met =>
      have hstop : ∀ c, (Segment.cellsBefore s p)[Segment.extent s]? = some c →
          c.shape = .nothing := by
        intro c hc
        rw [getElem?_cellsBefore_extent, Option.map_eq_some_iff] at hc
        obtain ⟨p, -, rfl⟩ := hc
        rfl
      rw [← Follows.congr_before cells hstop, ← accepts_endBefore positive]
      simp only [Option.mem_def, Option.map_eq_some_iff]
      constructor
      · rintro ⟨-, ⟨l, hl, rfl⟩, hx⟩
        exact ⟨l, hl, (hnormal l (.endBefore positive hl)).mp hx⟩
      · rintro ⟨l, hl, hx⟩
        exact ⟨_, ⟨l, hl, rfl⟩, (hnormal l (.endBefore positive hl)).mpr hx⟩

/-- The walk along two lists that are aligned already. -/
def sideBySide (meet : Shape → Shape → Option Shape) (a b : ArgList) : Option ArgList :=
  match Segment.walk meet a.initial b.initial with
  | .contradiction c p => endBefore c (some p)
  | .exhausted c left right =>
      if a.isFinite || b.isFinite then
        endBefore c (Segment.firstPresence (left ++ a.repeated ++ right ++ b.repeated))
      else
        match Segment.walk meet a.repeated b.repeated with
        | .contradiction d p => endBefore (c ++ d) (some p)
        | .exhausted d _ _ => some ⟨c, d⟩

/-- Two loops are walked in step; a list with a loop has reached it when the other one ends. -/
structure Aligned (a b : ArgList) : Prop where
  loops : a.isFinite = false → b.isFinite = false →
    Segment.extent a.initial = Segment.extent b.initial ∧
      Segment.extent a.repeated = Segment.extent b.repeated
  left : a.isFinite = true → b.isFinite = false →
    Segment.extent a.initial ≤ Segment.extent b.initial
  right : b.isFinite = true → a.isFinite = false →
    Segment.extent b.initial ≤ Segment.extent a.initial

variable {meet : Shape → Shape → Option Shape} {a b : ArgList}

/-- The walk stops where both lists are known up to `u` and `v`. -/
theorem Outcome.stop {s : Segment} {u v w x y z : List Cell} {p : Option Presence}
    (hs : Segment.Positive s) (hmet : Met meet u v (Segment.cells s))
    (hp : Cell.common meet (w ++ x).head? (y ++ z).head? = p.map fun p => ⟨p, .nothing⟩)
    (ha : a.cellAt = lasso (u ++ w) x) (hb : b.cellAt = lasso (v ++ y) z) :
    Outcome meet a.cellAt b.cellAt (endBefore s p) := by
  have hu := hmet.length_left
  have hv := hmet.length_right
  rw [Segment.length_cells] at hu hv
  refine .ended hs (fun n hn => ?_) fun n hn => ?_
  · rw [ha, hb, lasso_of_le u w x (by omega), lasso_of_le v y z (by omega)]
    exact hmet.getElem?_stop hp n
  · rw [ha, hb, lasso_of_le u w x (by omega), lasso_of_le v y z (by omega),
      List.getElem?_append_left (by omega), List.getElem?_append_left (by omega)]
    exact hmet.meets (by simpa using hn)

theorem common_head? {s t : Segment} (hs : Segment.Positive s) (ht : Segment.Positive t)
    (h : s = [] ∨ t = []) :
    Cell.common meet (Segment.cells s).head? (Segment.cells t).head? =
      (Segment.firstPresence (s ++ t)).map fun p => ⟨p, .nothing⟩ := by
  rw [Segment.head?_cells hs, Segment.head?_cells ht, Segment.firstPresence]
  rcases h with rfl | rfl
  · cases t <;> simp [Cell.common, Run.cell]
  · cases s <;> simp [Cell.common, Run.cell]

/-- Where one segment is used up, so is the other one, or the loop of the first is empty. -/
theorem Aligned.rest_eq_nil (h : Aligned a b) (hfin : (a.isFinite || b.isFinite) = true)
    {x y : Segment} {k : ℕ} (hx : Segment.Positive x) (hy : Segment.Positive y)
    (hxy : x = [] ∨ y = []) (ha : Segment.extent a.initial = k + Segment.extent x)
    (hb : Segment.extent b.initial = k + Segment.extent y) :
    x ++ a.repeated = [] ∨ y ++ b.repeated = [] := by
  cases hafin : a.isFinite with
  | true =>
      have harep := isFinite_iff.mp hafin
      cases hbfin : b.isFinite with
      | true =>
          have hbrep := isFinite_iff.mp hbfin
          simpa [harep, hbrep] using hxy
      | false =>
          have hle := h.left hafin hbfin
          left
          rcases hxy with rfl | rfl
          · simp [harep]
          · simp only [Segment.extent] at hb
            simp [harep, (Segment.extent_eq_zero hx).mp (by omega)]
  | false =>
      have hbfin : b.isFinite = true := by simpa [hafin] using hfin
      have hbrep := isFinite_iff.mp hbfin
      have hle := h.right hbfin hafin
      right
      rcases hxy with rfl | rfl
      · simp only [Segment.extent] at ha
        simp [hbrep, (Segment.extent_eq_zero hy).mp (by omega)]
      · simp [hbrep]

/-- Two loops of the same length are walked once, where all cells before them meet. -/
theorem outcome_loops (ha : a.Positive) (hb : b.Positive) (hafin : a.isFinite = false)
    (hextent : Segment.extent a.repeated = Segment.extent b.repeated) {c : Segment}
    (hc : Segment.Positive c)
    (hmet : Met meet (Segment.cells a.initial) (Segment.cells b.initial) (Segment.cells c)) :
    Outcome meet a.cellAt b.cellAt
      (match Segment.walk meet a.repeated b.repeated with
      | .contradiction d p => endBefore (c ++ d) (some p)
      | .exhausted d _ _ => some ⟨c, d⟩) := by
  have hau := cellAt_eq_lasso a
  have hbv := cellAt_eq_lasso b
  have hrepeated : (Segment.walk meet a.repeated b.repeated).Finds meet _ _ :=
    Segment.walk_finds ha.2 hb.2
  cases hwalk : Segment.walk meet a.repeated b.repeated with
  | contradiction d p =>
      rw [hwalk] at hrepeated
      obtain ⟨⟨u, v, e, f, u', v', hu, hv, hmet', hnone, rfl⟩, hd⟩ := hrepeated
      rw [← lasso_append_loop, hu, ← List.append_assoc] at hau
      rw [← lasso_append_loop, hv, ← List.append_assoc] at hbv
      refine Outcome.stop (Segment.positive_append.mpr ⟨hc, hd⟩) ?_ ?_ hau hbv
      · rw [Segment.cells_append]
        exact hmet.append hmet'
      · simp [Cell.common, hnone]
  | exhausted d x y =>
      rw [hwalk] at hrepeated
      obtain ⟨⟨u, v, hu, hv, hmet'⟩, hxy, hd, hx, hy⟩ := hrepeated
      have hea := congrArg List.length hu
      have heb := congrArg List.length hv
      simp only [List.length_append, Segment.length_cells, hmet'.length_left,
        hmet'.length_right] at hea heb
      obtain ⟨rfl, rfl⟩ := Segment.eq_nil_of_extent_eq hx hy hxy (by omega)
      simp only [Segment.cells_nil, List.append_nil] at hu hv
      have hloop : Segment.cells d ≠ [] := by
        rw [Ne, ← List.length_eq_zero_iff, ← hmet'.length_left, ← hu, Segment.length_cells,
          ← ha.isFinite_eq]
        simp [hafin]
      refine .looped ⟨hc, hd⟩ (fun n => ?_) fun n => ?_
      · rw [hau, hbv, hu, hv, cellAt_eq_lasso]
        exact hmet.lasso hmet' n
      · rw [hau, hbv, hu, hv]
        exact hmet.meets_lasso hmet' hloop n

theorem outcome_sideBySide (ha : a.Positive) (hb : b.Positive) (h : Aligned a b) :
    Outcome meet a.cellAt b.cellAt (sideBySide meet a b) := by
  have hinitial : (Segment.walk meet a.initial b.initial).Finds meet _ _ :=
    Segment.walk_finds ha.1 hb.1
  unfold sideBySide
  cases hwalk : Segment.walk meet a.initial b.initial with
  | contradiction c p =>
      rw [hwalk] at hinitial
      obtain ⟨⟨u, v, d, e, u', v', hu, hv, hmet, hnone, rfl⟩, hc⟩ := hinitial
      refine Outcome.stop hc hmet ?_ (hu ▸ cellAt_eq_lasso a) (hv ▸ cellAt_eq_lasso b)
      simp [Cell.common, hnone]
  | exhausted c x y =>
      rw [hwalk] at hinitial
      obtain ⟨⟨u, v, hu, hv, hmet⟩, hxy, hc, hx, hy⟩ := hinitial
      have hea := congrArg List.length hu
      have heb := congrArg List.length hv
      simp only [List.length_append, Segment.length_cells, hmet.length_left,
        hmet.length_right] at hea heb
      dsimp only
      split_ifs with hfin
      · -- one of the lists ends here, or both do
        refine Outcome.stop hc hmet ?_ (hu ▸ cellAt_eq_lasso a) (hv ▸ cellAt_eq_lasso b)
        rw [← Segment.cells_append, ← Segment.cells_append, List.append_assoc]
        refine common_head? (Segment.positive_append.mpr ⟨hx, ha.2⟩)
          (Segment.positive_append.mpr ⟨hy, hb.2⟩) ?_
        exact h.rest_eq_nil hfin hx hy hxy hea heb
      · obtain ⟨hafin, hbfin⟩ : a.isFinite = false ∧ b.isFinite = false := by
          simpa using hfin
        obtain ⟨hinit, hloop⟩ := h.loops hafin hbfin
        obtain ⟨rfl, rfl⟩ := Segment.eq_nil_of_extent_eq hx hy hxy (by omega)
        simp only [Segment.cells_nil, List.append_nil] at hu hv
        rw [← hu, ← hv] at hmet
        exact outcome_loops ha hb hafin hloop hc hmet

/-- The first list as it is walked along the second: with the common loop, and the loop delayed
until both are there. -/
def alignTo (a b : ArgList) : ArgList :=
  let m := Segment.extent a.repeated
  let n := Segment.extent b.repeated
  (a.unfold (n / m.gcd n)).rotate (max (Segment.extent a.initial) (Segment.extent b.initial))

theorem cellAt_alignTo (ha : a.Positive) (b : ArgList) : (a.alignTo b).cellAt = a.cellAt := by
  rw [alignTo, cellAt_rotate (ha.unfold _), cellAt_unfold]

theorem Positive.alignTo (ha : a.Positive) (b : ArgList) : (a.alignTo b).Positive :=
  (ha.unfold _).rotate _

theorem alignTo_of_finite (h : a.repeated = []) (b : ArgList) : a.alignTo b = a := by
  rw [ArgList.alignTo, unfold_of_finite h, rotate_of_finite h]

theorem extent_repeated_alignTo (a b : ArgList) :
    Segment.extent (a.alignTo b).repeated =
      max (Segment.extent b.repeated /
        (Segment.extent a.repeated).gcd (Segment.extent b.repeated)) 1 *
          Segment.extent a.repeated := by
  rw [alignTo, extent_repeated_rotate, extent_unfold]

theorem isFinite_alignTo (ha : a.Positive) (b : ArgList) :
    (a.alignTo b).isFinite = a.isFinite := by
  rw [Bool.eq_iff_iff, (ha.alignTo b).isFinite_eq, extent_repeated_alignTo, ha.isFinite_eq,
    Nat.mul_eq_zero]
  omega

theorem extent_initial_alignTo (ha : a.Positive) (hfin : a.isFinite = false) (b : ArgList) :
    Segment.extent (a.alignTo b).initial =
      max (Segment.extent a.initial) (Segment.extent b.initial) := by
  have hunfold : (a.unfold (Segment.extent b.repeated /
      (Segment.extent a.repeated).gcd (Segment.extent b.repeated))).isFinite = false := by
    rw [← hfin, ← isFinite_alignTo ha b, alignTo, isFinite_rotate (ha.unfold _)]
  rw [alignTo, extent_initial_rotate (ha.unfold _) hunfold, initial_unfold]
  omega

theorem aligned_alignTo (ha : a.Positive) (hb : b.Positive) :
    Aligned (a.alignTo b) (b.alignTo a) where
  loops hafin hbfin := by
    rw [isFinite_alignTo ha] at hafin
    rw [isFinite_alignTo hb] at hbfin
    constructor
    · rw [extent_initial_alignTo ha hafin, extent_initial_alignTo hb hbfin, Nat.max_comm]
    · rw [extent_repeated_alignTo, extent_repeated_alignTo]
      have hm : 0 < Segment.extent a.repeated :=
        Nat.pos_of_ne_zero (ha.isFinite_eq.not.mp (by simp [hafin]))
      have hn : 0 < Segment.extent b.repeated :=
        Nat.pos_of_ne_zero (hb.isFinite_eq.not.mp (by simp [hbfin]))
      generalize Segment.extent a.repeated = m at hm
      generalize Segment.extent b.repeated = n at hn
      rw [Nat.gcd_comm n m, Nat.max_eq_left (Nat.div_gcd_pos_of_pos_right m hn),
        Nat.max_eq_left (Nat.div_gcd_pos_of_pos_left n hm),
        Nat.div_mul_right_comm (Nat.gcd_dvd_right m n), Nat.mul_comm n m,
        ← Nat.div_mul_right_comm (Nat.gcd_dvd_left m n)]
  left hafin hbfin := by
    rw [isFinite_alignTo ha] at hafin
    rw [isFinite_alignTo hb] at hbfin
    rw [alignTo_of_finite (isFinite_iff.mp hafin), extent_initial_alignTo hb hbfin]
    exact Nat.le_max_right _ _
  right hbfin hafin := by
    rw [isFinite_alignTo ha] at hafin
    rw [isFinite_alignTo hb] at hbfin
    rw [alignTo_of_finite (isFinite_iff.mp hbfin), extent_initial_alignTo ha hafin]
    exact Nat.le_max_right _ _

theorem intersectWith_eq (lists : ArgList → ArgList → Option ArgList) (a b : ArgList) :
    intersectWith lists a b = (sideBySide (Shape.meetWith lists) (a.alignTo b)
      (b.alignTo a)).map normalizeOutermost := by
  let m := Segment.extent a.repeated
  let n := Segment.extent b.repeated
  let k := max (Segment.extent (a.unfold (n / m.gcd n)).initial)
    (Segment.extent (b.unfold (m / m.gcd n)).initial)
  have ha : a.alignTo b = (a.unfold (n / m.gcd n)).rotate k := by
    simp only [alignTo, k, m, n, initial_unfold]
  have hb : b.alignTo a = (b.unfold (m / m.gcd n)).rotate k := by
    simp only [alignTo, k, m, n, initial_unfold, Nat.gcd_comm, Nat.max_comm]
  rw [ha, hb]
  rfl

theorem outcome_intersectWith (ha : a.Positive) (hb : b.Positive)
    (lists : ArgList → ArgList → Option ArgList) :
    ∃ o, intersectWith lists a b = o.map normalizeOutermost ∧
      Outcome (Shape.meetWith lists) a.cellAt b.cellAt o := by
  have h : Outcome (Shape.meetWith lists) _ _ (sideBySide (Shape.meetWith lists) _ _) :=
    outcome_sideBySide (ha.alignTo b) (hb.alignTo a) (aligned_alignTo ha hb)
  rw [cellAt_alignTo ha, cellAt_alignTo hb] at h
  exact ⟨_, intersectWith_eq lists a b, h⟩

/-- Intersecting lists accepts what their common cells do, whatever it means that shapes meet. -/
theorem accepts_intersectWith (ha : a.Positive) (hb : b.Positive)
    (lists : ArgList → ArgList → Option ArgList) (xs : List Value) :
    (∃ l ∈ intersectWith lists a b, l.Accepts xs) ↔
      Follows xs fun n => Cell.common (Shape.meetWith lists) (a.cellAt n) (b.cellAt n) := by
  obtain ⟨o, ho, houtcome⟩ := outcome_intersectWith ha hb lists
  rw [ho, houtcome.accepts]

end ArgList

theorem Kinds.not_mem_of_isEmpty {k : Kinds} (h : k.isEmpty = true) (c : Category) : c ∉ k := by
  have hbits : k.bits = 0 := eq_of_beq h
  simp [Membership.mem, contains, hbits]

theorem Kinds.inter_comm (k l : Kinds) : k.inter l = l.inter k := by
  simp only [inter, BitVec.and_comm]

theorem Shape.compound_meetWith_plain (lists : ArgList → ArgList → Option ArgList) (k l : Kinds)
    (i r : List Run) : (compound k i r).meetWith lists (.plain l) =
      (Shape.plain l).meetWith lists (.compound k i r) := by
  simp only [meetWith, Kinds.inter_comm k l]

/-- The only compound types that directives give are the two whose values have elements of one
sort: sequences, with one element to describe, and tables, with a key and a value. -/
def Shape.Elementwise (s : Shape) : Prop :=
  s.isCompound = true → s.kinds = .sequences ∨ s.kinds = .tables

instance (s : Shape) : Decidable s.Elementwise :=
  inferInstanceAs (Decidable (_ → _))

namespace Value
variable {lists : ArgList → ArgList → Option ArgList} (x : Value)

theorem fits_meetWith_plain (k : Kinds) (t : Shape) :
    x.Fits (((Shape.plain k).meetWith lists t).getD .nothing) ↔
      x.Fits (.plain k) ∧ x.Fits t := by
  have hempty : ∀ l : Kinds, (k.inter l).isEmpty = true →
      ¬ (x.category ∈ k ∧ x.category ∈ l) := by
    intro l hkl hx
    exact Kinds.not_mem_of_isEmpty hkl _ ((Kinds.mem_inter _ k l).mpr hx)
  cases t with
  | plain l =>
      simp only [Shape.meetWith]
      split_ifs with hk hl hkl
      · simp [hk, fits_plain, Kinds.mem_any]
      · simp [hl, fits_plain, Kinds.mem_any]
      · simpa [fits_plain, x.not_fits_nothing] using hempty l hkl
      · simp [fits_plain, Kinds.mem_inter]
  | compound l j r =>
      simp only [Shape.meetWith]
      split_ifs with hk hkl
      · simp [hk, fits_plain, Kinds.mem_any]
      · have := hempty l hkl
        simp only [Option.getD_none, x.not_fits_nothing, fits_plain, fits_compound, false_iff]
        tauto
      · simp only [Option.getD_some, fits_plain, fits_compound, Kinds.mem_inter, and_assoc]

theorem fits_meetWith_compound {k l : Kinds} {i r j q : List Run}
    (hs : (Shape.compound k i r).Elementwise) (ht : (Shape.compound l j q).Elementwise)
    (h : ∀ xs, (∃ m ∈ lists ⟨i, r⟩ ⟨j, q⟩, m.Accepts xs) ↔
      ArgList.Accepts ⟨i, r⟩ xs ∧ ArgList.Accepts ⟨j, q⟩ xs) :
    x.Fits (((Shape.compound k i r).meetWith lists (.compound l j q)).getD .nothing) ↔
      x.Fits (.compound k i r) ∧ x.Fits (.compound l j q) := by
  have hk := hs rfl
  have hl := ht rfl
  simp only [Shape.kinds] at hk hl
  simp only [Shape.meetWith]
  split_ifs with hkl
  · obtain ⟨rfl, -⟩ := hkl
    have hfits : x.Fits (((lists ⟨i, r⟩ ⟨j, q⟩).map fun m =>
        Shape.compound k m.initial m.repeated).getD .nothing) ↔ x.category ∈ k ∧
        ∃ es, x.elements? = some es ∧ ∃ m ∈ lists ⟨i, r⟩ ⟨j, q⟩, m.Accepts es := by
      cases lists ⟨i, r⟩ ⟨j, q⟩ with
      | none => simp [x.not_fits_nothing]
      | some m => simp [fits_compound]
    simp only [hfits, h, fits_compound]
    cases x.elements? with
    | none => simp
    | some es =>
        simp only [Option.some.injEq, exists_eq_left']
        tauto
  · -- sequences and tables have no value in common
    have hdisjoint : ¬ (x.category ∈ Kinds.sequences ∧ x.category ∈ Kinds.tables) := by
      cases x.category <;> decide
    simp only [Option.getD_none, x.not_fits_nothing, fits_compound, false_iff]
    rcases hk with rfl | rfl <;> rcases hl with rfl | rfl <;> simp at hkl <;> tauto

/-- Shapes meet in what fits both, if their element lists do. -/
theorem fits_meetWith {s t : Shape} (hs : s.Elementwise) (ht : t.Elementwise)
    (h : ∀ l m, s.elements? = some l → t.elements? = some m → ∀ xs,
      (∃ r ∈ lists l m, r.Accepts xs) ↔ l.Accepts xs ∧ m.Accepts xs) :
    x.Fits ((s.meetWith lists t).getD .nothing) ↔ x.Fits s ∧ x.Fits t := by
  cases s with
  | plain k => exact x.fits_meetWith_plain k t
  | compound k i r =>
      cases t with
      | plain l =>
          rw [Shape.compound_meetWith_plain, x.fits_meetWith_plain, and_comm]
      | compound l j q => exact x.fits_meetWith_compound hs ht (h _ _ rfl rfl)

end Value

namespace ArgList

/-- All compound shapes are of the two types, at every level of nesting. -/
def Elementwise : ArgList → Prop :=
  Everywhere fun r => r.shape.Elementwise

instance (l : ArgList) : Decidable l.Elementwise :=
  inferInstanceAs (Decidable (l.Everywhere _))

variable {a b : ArgList}

theorem Elementwise.shape {r : Run} (h : a.Elementwise) (hr : r ∈ a.runs) :
    r.shape.Elementwise := by
  obtain ⟨here, -⟩ := h
  exact here r hr

/-- A step along the nesting: if element lists intersect in what both accept, so do the lists. -/
theorem accepts_intersectWith_of_elements (ha : a.WellFormed) (hb : b.WellFormed)
    (ha' : a.Elementwise) (hb' : b.Elementwise) {lists : ArgList → ArgList → Option ArgList}
    (h : ∀ q ∈ a.runs, ∀ r ∈ b.runs, ∀ l m, q.shape.elements? = some l →
      r.shape.elements? = some m → ∀ xs,
        (∃ r ∈ lists l m, r.Accepts xs) ↔ l.Accepts xs ∧ m.Accepts xs) (xs : List Value) :
    (∃ l ∈ intersectWith lists a b, l.Accepts xs) ↔ a.Accepts xs ∧ b.Accepts xs := by
  rw [accepts_intersectWith ha.positive hb.positive, accepts_iff_follows, accepts_iff_follows]
  apply Follows.common
  intro n c d hc hd x
  obtain ⟨q, hq, rfl⟩ := mem_runs_of_cellAt hc
  obtain ⟨r, hr, rfl⟩ := mem_runs_of_cellAt hd
  exact x.fits_meetWith (ha'.shape hq) (hb'.shape hr) (h q hq r hr)

theorem accepts_intersectTo (d : ℕ) (ha : a.WellFormed) (hb : b.WellFormed)
    (ha' : a.Elementwise) (hb' : b.Elementwise) (hd : min a.depth b.depth ≤ d)
    (xs : List Value) :
    (∃ l ∈ intersectTo d a b, l.Accepts xs) ↔ a.Accepts xs ∧ b.Accepts xs := by
  induction d generalizing a b xs with
  | zero =>
      -- one of the lists has no compound shape
      apply accepts_intersectWith_of_elements ha hb ha' hb'
      intro q hq r hr l m hl hm
      have := depth_lt_of_mem hq hl
      have := depth_lt_of_mem hr hm
      omega
  | succ d ih =>
      apply accepts_intersectWith_of_elements ha hb ha' hb'
      intro q hq r hr l m hl hm
      have := depth_lt_of_mem hq hl
      have := depth_lt_of_mem hr hm
      exact ih (ha.elements hq hl) (hb.elements hr hm) (ha'.elements hq hl) (hb'.elements hr hm)
        (by omega)

theorem accepts_intersect (ha : a.WellFormed) (hb : b.WellFormed) (ha' : a.Elementwise)
    (hb' : b.Elementwise) (xs : List Value) :
    (∃ l ∈ a.intersect b, l.Accepts xs) ↔ a.Accepts xs ∧ b.Accepts xs :=
  accepts_intersectTo _ ha hb ha' hb' (Nat.le_refl _) xs

end ArgList

end CatalogLint
