import CatalogLint.Proofs.ArgList.Settled

/-!
# What determines an intersection

The intersection of two lists depends on their cells alone: two lists that satisfy the same
`Outcome` have the same cells, or neither exists (`Outcome.unique`). Element lists are intersected
as lists are, however much nesting is allowed for (`intersect_eq_intersectWith`), so that one way
of meeting shapes serves everywhere (`Shape.meet_eq`). Whatever comes to the outcome of an
intersection is therefore that intersection, up to normal form (`Outcome.normalize_eq_intersect`).
-/
namespace CatalogLint
open Sequence

/-! ### Meeting the same shapes -/

theorem Segment.walk_congr {meet meet' : Shape → Shape → Option Shape} {s t : Segment}
    (h : ∀ x ∈ s.map Run.shape, ∀ y ∈ t.map Run.shape, meet x y = meet' x y) :
    walk meet s t = walk meet' s t := by
  fun_induction walk meet s t with
  | case1 s => rw [walk]
  | case2 r s => rw [walk]
  | case3 q s r t presence hnone =>
      rw [h q.shape List.mem_cons_self r.shape List.mem_cons_self] at hnone
      rw [walk, hnone]
  | case4 q s r t presence shape hsome hlt ih =>
      rw [h q.shape List.mem_cons_self r.shape List.mem_cons_self] at hsome
      rw [walk, hsome, ih fun x hx y hy => h x (List.mem_cons_of_mem _ hx) y hy]
      simp only [if_pos hlt]
      rfl
  | case5 q s r t presence shape hsome hle hlt ih =>
      rw [h q.shape List.mem_cons_self r.shape List.mem_cons_self] at hsome
      rw [walk, hsome, ih fun x hx y hy => h x hx y (List.mem_cons_of_mem _ hy)]
      simp only [if_neg hle, if_pos hlt]
      rfl
  | case6 q s r t presence shape hsome hle hge ih =>
      rw [h q.shape List.mem_cons_self r.shape List.mem_cons_self] at hsome
      rw [walk, hsome,
        ih fun x hx y hy => h x (List.mem_cons_of_mem _ hx) y (List.mem_cons_of_mem _ hy)]
      simp only [if_neg hle, if_neg hge]
      rfl

theorem Shape.meetWith_congr {lists lists' : ArgList → ArgList → Option ArgList} {s t : Shape}
    (h : ∀ l m, s.elements? = some l → t.elements? = some m → lists l m = lists' l m) :
    s.meetWith lists t = s.meetWith lists' t := by
  cases s with
  | plain k => rfl
  | compound k i r =>
      cases t with
      | plain l => rfl
      | compound l j q => simp only [meetWith, h _ _ rfl rfl]

namespace ArgList
variable {a b : ArgList} {lists lists' : ArgList → ArgList → Option ArgList}

theorem sideBySide_congr {meet meet' : Shape → Shape → Option Shape}
    (h : ∀ q ∈ a.runs, ∀ r ∈ b.runs, meet q.shape r.shape = meet' q.shape r.shape) :
    sideBySide meet a b = sideBySide meet' a b := by
  have hinitial : Segment.walk meet a.initial b.initial =
      Segment.walk meet' a.initial b.initial := by
    apply Segment.walk_congr
    simp only [List.forall_mem_map]
    exact fun q hq r hr => h q (List.mem_append_left _ hq) r (List.mem_append_left _ hr)
  have hrepeated : Segment.walk meet a.repeated b.repeated =
      Segment.walk meet' a.repeated b.repeated := by
    apply Segment.walk_congr
    simp only [List.forall_mem_map]
    exact fun q hq r hr => h q (List.mem_append_right _ hq) r (List.mem_append_right _ hr)
  rw [sideBySide, sideBySide, hinitial, hrepeated]

/-- The runs of an aligned list are of the same shapes. -/
theorem exists_run_alignTo (ha : a.Positive) {r : Run} (hr : r ∈ (a.alignTo b).runs) :
    ∃ q ∈ a.runs, q.shape = r.shape := by
  obtain ⟨n, hn⟩ := exists_cellAt_of_mem_runs (ha.alignTo b) hr
  rw [cellAt_alignTo ha] at hn
  obtain ⟨q, hq, hcell⟩ := mem_runs_of_cellAt hn
  exact ⟨q, hq, congrArg Cell.shape hcell⟩

theorem intersectWith_congr (ha : a.Positive) (hb : b.Positive)
    (h : ∀ q ∈ a.runs, ∀ r ∈ b.runs, ∀ l m, q.shape.elements? = some l →
      r.shape.elements? = some m → lists l m = lists' l m) :
    intersectWith lists a b = intersectWith lists' a b := by
  rw [intersectWith_eq, intersectWith_eq]
  apply congrArg
  apply sideBySide_congr
  intro q hq r hr
  obtain ⟨q', hq', hq⟩ := exists_run_alignTo ha hq
  obtain ⟨r', hr', hr⟩ := exists_run_alignTo hb hr
  rw [← hq, ← hr]
  exact Shape.meetWith_congr (h q' hq' r' hr')

/-- Allowing for more nesting than there is makes no difference. -/
theorem intersectTo_eq_of_le {d e : ℕ} (ha : a.WellFormed) (hb : b.WellFormed)
    (hd : min a.depth b.depth ≤ d) (he : min a.depth b.depth ≤ e) :
    intersectTo d a b = intersectTo e a b := by
  induction d generalizing a b e with
  | zero =>
      rw [intersectTo_eq, intersectTo_eq]
      apply intersectWith_congr ha.positive hb.positive
      intro q hq r hr l m hl hm
      have := depth_lt_of_mem hq hl
      have := depth_lt_of_mem hr hm
      omega
  | succ d ih =>
      rw [intersectTo_eq, intersectTo_eq]
      apply intersectWith_congr ha.positive hb.positive
      intro q hq r hr l m hl hm
      have := depth_lt_of_mem hq hl
      have := depth_lt_of_mem hr hm
      -- element lists are nested one level less, so both bounds still cover them
      obtain ⟨e, rfl⟩ := Nat.exists_eq_add_one_of_ne_zero (show e ≠ 0 by omega)
      exact ih (ha.elements hq hl) (hb.elements hr hm) (by omega) (by omega)

theorem intersectTo_eq_intersect {d : ℕ} (ha : a.WellFormed) (hb : b.WellFormed)
    (hd : min a.depth b.depth ≤ d) : intersectTo d a b = a.intersect b :=
  intersectTo_eq_of_le ha hb hd (Nat.le_refl _)

/-- Element lists are intersected as lists are. -/
theorem intersect_eq_intersectWith (ha : a.WellFormed) (hb : b.WellFormed) :
    a.intersect b = intersectWith intersect a b := by
  rw [intersect, intersectTo_eq]
  apply intersectWith_congr ha.positive hb.positive
  intro q hq r hr l m hl hm
  have := depth_lt_of_mem hq hl
  have := depth_lt_of_mem hr hm
  obtain ⟨d, hd⟩ := Nat.exists_eq_add_one_of_ne_zero (show min a.depth b.depth ≠ 0 by omega)
  rw [hd]
  exact intersectTo_eq_intersect (ha.elements hq hl) (hb.elements hr hm) (by omega)

end ArgList

/-- The shape admits something, and so do the shapes of its elements. -/
structure Shape.WellFormed (s : Shape) : Prop where
  kinds : s.isCompound = false → s.kinds.isEmpty = false
  elements : ∀ l, s.elements? = some l → l.WellFormed

theorem Shape.meet_eq {s t : Shape} (hs : s.WellFormed) (ht : t.WellFormed) :
    s.meet t = s.meetWith ArgList.intersect t := by
  apply Shape.meetWith_congr
  intro l m hl hm
  have := Shape.depth_elements hl
  have := Shape.depth_elements hm
  exact ArgList.intersectTo_eq_intersect (hs.elements l hl) (ht.elements m hm) (by omega)

/-- Where shapes meet, something is left. -/
theorem Shape.meetWith_ne_nothing {lists : ArgList → ArgList → Option ArgList} {s t : Shape}
    (hs : s.WellFormed) (ht : t.WellFormed) : s.meetWith lists t ≠ some .nothing := by
  have hempty : ∀ k : Kinds, k.isEmpty = false → some (plain k) ≠ some nothing := by
    rintro k hk ⟨⟩
    exact absurd hk (by decide)
  cases s with
  | plain k =>
      cases t with
      | plain l =>
          simp only [meetWith]
          split_ifs with h₁ h₂ h₃
          · exact hempty l (ht.kinds rfl)
          · exact hempty k (hs.kinds rfl)
          · simp
          · exact hempty _ (by simpa using h₃)
      | compound l j q =>
          simp only [meetWith]
          split_ifs <;> simp [nothing]
  | compound k i r =>
      cases t with
      | plain l =>
          simp only [meetWith]
          split_ifs <;> simp [nothing]
      | compound l j q =>
          simp only [meetWith]
          split_ifs
          · cases lists ⟨i, r⟩ ⟨j, q⟩ <;> simp [nothing]
          · simp

/-! ### Lists that end -/

/-- The cells before the last optional one. -/
def Cell.beforeOptional : List Cell → Option (List Cell)
  | [] => none
  | c :: u =>
      match beforeOptional u with
      | some v => some (c :: v)
      | none => if c.presence = .optional then some [] else none

theorem Cell.beforeOptional_append (u v : List Cell) : beforeOptional (u ++ v) =
    match beforeOptional v with
    | some w => some (u ++ w)
    | none => beforeOptional u := by
  induction u with
  | nil => cases h : beforeOptional v <;> simp [h, beforeOptional]
  | cons c u ih =>
      rw [List.cons_append, beforeOptional, ih]
      cases beforeOptional v with
      | some w => rfl
      | none => rw [beforeOptional]

theorem Cell.beforeOptional_replicate (c : Cell) (n : ℕ) :
    beforeOptional (List.replicate (n + 1) c) =
      if c.presence = .optional then some (List.replicate n c) else none := by
  induction n with
  | zero => rfl
  | succ n ih =>
      rw [List.replicate_succ, beforeOptional, ih]
      split_ifs <;> simp [List.replicate_succ]

theorem Segment.cellsBefore_injective {s t : Segment} {p q : Option Presence}
    (hextent : extent s = extent t)
    (h : ∀ n ≤ extent s, (cellsBefore s p)[n]? = (cellsBefore t q)[n]?) :
    cells s = cells t ∧ p = q := by
  constructor
  · apply List.ext_getElem?
    intro n
    by_cases hn : n < extent s
    · have := h n hn.le
      rwa [cellsBefore, cellsBefore, List.getElem?_append_left (by simpa using hn),
        List.getElem?_append_left (by simpa [← hextent] using hn)] at this
    · rw [List.getElem?_eq_none (by simpa using hn),
        List.getElem?_eq_none (by simpa [← hextent] using hn)]
  · have hlast := h _ (Nat.le_refl _)
    rw [ArgList.getElem?_cellsBefore_extent, hextent, ArgList.getElem?_cellsBefore_extent] at hlast
    cases p <;> cases q <;> simp_all

namespace ArgList

/-- Ending a list before its last optional argument depends on its cells. -/
theorem cellAt_backtrack {s : Segment} (hs : Segment.Positive s) :
    (finite s).backtrack.map cellAt =
      (Cell.beforeOptional (Segment.cells s)).map fun u n => u[n]? := by
  induction s using List.reverseRecOn with
  | nil => rfl
  | append_singleton s r ih =>
      obtain ⟨hs, hr⟩ := Segment.positive_append.mp hs
      have hr := (Segment.positive_cons.mp hr).1
      obtain ⟨n, hn⟩ := Nat.exists_eq_add_one_of_ne_zero (Nat.ne_of_gt hr)
      rw [backtrack_concat, Run.isRequired, Segment.cells_append, Segment.cells_cons,
        Segment.cells_nil, List.append_nil, Cell.beforeOptional_append, hn,
        Cell.beforeOptional_replicate]
      cases hp : r.presence with
      | required => simpa [Run.cell, hp] using ih hs
      | optional =>
          have hcells : Segment.cells (Segment.butLast r) = List.replicate n r.cell := by
            have := Segment.cells_butLast hr
            rw [hn, List.replicate_succ'] at this
            exact List.append_cancel_right this
          simp only [reduceCtorEq, decide_false, Bool.false_eq_true, if_false, Option.map_some,
            Run.cell, hp, if_true, Option.some.injEq]
          funext k
          rw [cellAt_finite, Segment.cells_append, hcells, Run.cell, hp]

theorem cellAt_endBefore {s t : Segment} (hs : Segment.Positive s) (ht : Segment.Positive t)
    (h : Segment.cells s = Segment.cells t) (p : Option Presence) :
    (endBefore s p).map cellAt = (endBefore t p).map cellAt := by
  have hfinite : (finite s).cellAt = (finite t).cellAt := by
    funext n
    rw [cellAt_finite, cellAt_finite, h]
  match p with
  | none => simp [endBefore, hfinite]
  | some .optional => simp [endBefore, hfinite]
  | some .required => rw [endBefore, endBefore, cellAt_backtrack hs, cellAt_backtrack ht, h]

variable {meet : Shape → Shape → Option Shape} {f g : ℕ → Option Cell} {o o' : Option ArgList}
  {a b : ArgList}

theorem Outcome.positive (h : Outcome meet f g o) : ∀ l ∈ o, l.Positive := by
  cases h with
  | looped positive cells met =>
      rintro l ⟨⟩
      exact positive
  | ended positive cells met => exact fun l hl => .endBefore positive hl

/-- Meets leave something of two shapes that stand at one place. -/
def Leaving (meet : Shape → Shape → Option Shape) (f g : ℕ → Option Cell) : Prop :=
  ∀ n c d, f n = some c → g n = some d → meet c.shape d.shape ≠ some .nothing

/-- Where a list has ended, no cells meet. -/
theorem Leaving.not_meets (h : Leaving meet f g) {s : Segment} {p : Option Presence}
    (hcell : (Segment.cellsBefore s p)[Segment.extent s]? =
      Cell.common meet (f (Segment.extent s)) (g (Segment.extent s))) :
    ¬ Cell.Meets meet (f (Segment.extent s)) (g (Segment.extent s)) := by
  rintro ⟨c, d, t, hc, hd, ht⟩
  rw [getElem?_cellsBefore_extent, hc, hd, Cell.common, ht] at hcell
  obtain ⟨q, -, hq⟩ := Option.map_eq_some_iff.mp hcell
  have ht' : t = .nothing := (congrArg Cell.shape hq).symm
  rw [ht'] at ht
  exact h _ c d hc hd ht

/-- What two lists have in common, or where it ends, determines the cells of the outcome. -/
theorem Outcome.unique (h : Outcome meet f g o) (h' : Outcome meet f g o')
    (hleaving : Leaving meet f g) : o.map cellAt = o'.map cellAt := by
  cases h with
  | @looped l _ cells met =>
      cases h' with
      | @looped l' _ cells' _ =>
          exact congrArg some (funext fun n => (cells n).trans (cells' n).symm)
      | @ended s p _ cells' _ =>
          exact absurd (met _) (hleaving.not_meets (cells' _ (Nat.le_refl _)))
  | @ended s p hs cells met =>
      cases h' with
      | @looped l' _ _ met' => exact absurd (met' _) (hleaving.not_meets (cells _ (Nat.le_refl _)))
      | @ended t q ht cells' met' =>
          -- the longer of the two would have cells that meet where the other one has ended
          have hextent : Segment.extent s = Segment.extent t := by
            rcases Nat.lt_trichotomy (Segment.extent s) (Segment.extent t) with hlt | heq | hlt
            · exact absurd (met' _ hlt) (hleaving.not_meets (cells _ (Nat.le_refl _)))
            · exact heq
            · exact absurd (met _ hlt) (hleaving.not_meets (cells' _ (Nat.le_refl _)))
          obtain ⟨hcells, rfl⟩ := Segment.cellsBefore_injective (p := p) (q := q) hextent
            fun n hn => (cells n hn).trans (cells' n (hextent ▸ hn)).symm
          exact cellAt_endBefore hs ht hcells p

/-- Lists with the same cells have the same normal form. -/
theorem map_normalizeOutermost_eq (h : o.map cellAt = o'.map cellAt) (ho : ∀ l ∈ o, l.Positive)
    (ho' : ∀ l ∈ o', l.Positive) : o.map normalizeOutermost = o'.map normalizeOutermost := by
  cases o with
  | none =>
      cases o' with
      | none => rfl
      | some m => cases h
  | some l =>
      cases o' with
      | none => cases h
      | some m =>
          have hcells : l.cellAt = m.cellAt := Option.some.inj h
          have hl := normal_normalizeOutermost (ho l rfl)
          have hm := normal_normalizeOutermost (ho' m rfl)
          refine congrArg some (hl.ext hm ?_)
          rw [cellAt_normalizeOutermost (ho l rfl), cellAt_normalizeOutermost (ho' m rfl), hcells]

theorem WellFormed.shape (h : a.WellFormed) {n : ℕ} {c : Cell} (hc : a.cellAt n = some c) :
    c.shape.WellFormed := by
  obtain ⟨r, hr, rfl⟩ := mem_runs_of_cellAt hc
  obtain ⟨here, elements⟩ := h
  exact ⟨(here r hr).2, elements r hr⟩

theorem normalize_normalizeOutermost (h : a.Positive) :
    a.normalizeOutermost.normalize = a.normalize := by
  have hnormal := normal_normalizeOutermost h
  apply normalize_ext hnormal.positive h
  intro n
  rw [cellAt_normalizeOutermost h]

/-- What is an outcome of intersecting two lists is their intersection. -/
theorem Outcome.normalizeOutermost_eq (ha : a.WellFormed) (hb : b.WellFormed)
    (h : Outcome (Shape.meetWith intersect) a.cellAt b.cellAt o) :
    o.map normalizeOutermost = a.intersect b := by
  obtain ⟨o', ho', houtcome⟩ := outcome_intersectWith ha.positive hb.positive intersect
  rw [intersect_eq_intersectWith ha hb, ho']
  apply map_normalizeOutermost_eq _ h.positive houtcome.positive
  apply h.unique houtcome
  exact fun n c d hc hd => Shape.meetWith_ne_nothing (ha.shape hc) (hb.shape hd)

theorem Outcome.normalize_eq (ha : a.WellFormed) (hb : b.WellFormed)
    (h : Outcome (Shape.meetWith intersect) a.cellAt b.cellAt o) :
    o.map normalize = (a.intersect b).map normalize := by
  rw [← h.normalizeOutermost_eq ha hb, Option.map_map]
  apply Option.map_congr
  intro l hl
  exact (normalize_normalizeOutermost (h.positive l hl)).symm

end ArgList

end CatalogLint
