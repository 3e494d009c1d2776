import CatalogLint.Proofs.ArgList.NarrowIntersection
import CatalogLint.Proofs.ArgList.Open

/-!
# Laws of intersections

Every argument of an intersection has the shape in which the shapes of both lists meet
(`Outcome.cells_of_some`), and where the intersection ends, neither list needs an argument
(`Outcome.optional_of_end`). Meeting shapes is commutative as soon as intersecting element lists
is, so that intersections are, by induction on the nesting (`intersect_comm`). They are in normal
form if element lists were (`normalize_intersect`), and the list that says nothing is their unit
(`intersect_unconstrained`).
-/
namespace CatalogLint
open Sequence

theorem Presence.combine_comm (p q : Presence) : p.combine q = q.combine p := by
  cases p <;> cases q <;> rfl

theorem Cell.common_comm {meet meet' : Shape → Shape → Option Shape} {o p : Option Cell}
    (h : ∀ c d, o = some c → p = some d → meet c.shape d.shape = meet' d.shape c.shape) :
    common meet o p = common meet' p o := by
  cases o with
  | none => cases p <;> rfl
  | some c =>
      cases p with
      | none => rfl
      | some d => rw [common, common, h c d rfl rfl, Presence.combine_comm]

theorem Cell.beforeOptional_eq_some {w u : List Cell} (h : beforeOptional w = some u) :
    ∃ c t, w = u ++ c :: t ∧ c.presence = .optional := by
  induction w generalizing u with
  | nil => cases h
  | cons d w ih =>
      rw [beforeOptional] at h
      cases hw : beforeOptional w with
      | some v =>
          rw [hw] at h
          cases h
          obtain ⟨c, t, rfl, hc⟩ := ih hw
          exact ⟨c, t, rfl, hc⟩
      | none =>
          simp only [hw] at h
          split_ifs at h with hd
          cases h
          exact ⟨d, w, rfl, hd⟩

theorem Shape.meetWith_comm {lists : ArgList → ArgList → Option ArgList} {s t : Shape}
    (h : ∀ l m, s.elements? = some l → t.elements? = some m → lists l m = lists m l) :
    s.meetWith lists t = t.meetWith lists s := by
  cases s with
  | plain k =>
      cases t with
      | plain l =>
          simp only [meetWith, Kinds.inter_comm k l]
          split_ifs with hk hl
          · rw [hk, hl]
          all_goals rfl
      | compound l j q => rw [compound_meetWith_plain]
  | compound k i r =>
      cases t with
      | plain l => rw [compound_meetWith_plain]
      | compound l j q =>
          simp only [meetWith, h _ _ rfl rfl]
          by_cases hkl : k = l
          · rw [hkl]
          · rw [if_neg fun hc => hkl hc.1, if_neg fun hc => hkl hc.1.symm]

namespace ArgList
variable {meet meet' : Shape → Shape → Option Shape} {f g : ℕ → Option Cell} {a b r : ArgList}
  {o : Option ArgList}

theorem Outcome.swap (h : Outcome meet f g o)
    (hmeet : ∀ n c d, f n = some c → g n = some d → meet c.shape d.shape = meet' d.shape c.shape) :
    Outcome meet' g f o := by
  have hcommon : ∀ n, Cell.common meet (f n) (g n) = Cell.common meet' (g n) (f n) :=
    fun n => Cell.common_comm fun c d => hmeet n c d
  have hmeets : ∀ n, Cell.Meets meet (f n) (g n) → Cell.Meets meet' (g n) (f n) := by
    rintro n ⟨c, d, t, hc, hd, ht⟩
    exact ⟨d, c, t, hd, hc, (hmeet n c d hc hd).symm.trans ht⟩
  cases h with
  | looped positive cells met =>
      exact .looped positive (fun n => (cells n).trans (hcommon n)) fun n => hmeets n (met n)
  | ended positive cells met =>
      exact .ended positive (fun n hn => (cells n hn).trans (hcommon n))
        fun n hn => hmeets n (met n hn)

/-- A list that ends before an argument has the first of the cells, and the cell after these is
optional. -/
theorem cells_of_endBefore {s : Segment} {p : Option Presence} (hs : Segment.Positive s)
    (h : endBefore s p = some r) : ∃ u t, Segment.cellsBefore s p = u ++ t ∧
      u.length ≤ Segment.extent s ∧ (∀ n, r.cellAt n = u[n]?) ∧
        ∀ c ∈ t.head?, c.presence = .optional := by
  have hlast : p ≠ some .required → ∃ u t, Segment.cellsBefore s p = u ++ t ∧
      u.length ≤ Segment.extent s ∧ (∀ n, r.cellAt n = u[n]?) ∧
        ∀ c ∈ t.head?, c.presence = .optional := by
    intro hp
    rw [endBefore_of_ne s hp, Option.some.injEq] at h
    refine ⟨Segment.cells s, _, rfl, by simp, fun n => by rw [← h, cellAt_finite], ?_⟩
    cases p with
    | none => simp
    | some q => cases q <;> simp_all
  match p with
  | none => exact hlast nofun
  | some .optional => exact hlast nofun
  | some .required =>
      have hcells := cellAt_backtrack hs
      rw [show (finite s).backtrack = some r from h, Option.map_some] at hcells
      obtain ⟨u, hu, hget⟩ := Option.map_eq_some_iff.mp hcells.symm
      obtain ⟨c, t, hsplit, hc⟩ := Cell.beforeOptional_eq_some hu
      have hlen := congrArg List.length hsplit
      rw [Segment.length_cells, List.length_append, List.length_cons] at hlen
      refine ⟨u, c :: t ++ [⟨.required, .nothing⟩], ?_, by omega,
        fun n => (congrFun hget n).symm, by simpa using hc⟩
      rw [Segment.cellsBefore, hsplit]
      simp

/-- What the outcome says of an argument is what both lists say together. -/
theorem Outcome.cells_of_some (h : Outcome meet f g (some r)) {n : ℕ} {c : Cell}
    (hc : r.cellAt n = some c) :
    Cell.Meets meet (f n) (g n) ∧ Cell.common meet (f n) (g n) = some c := by
  generalize ho : some r = o at h
  cases h with
  | looped positive cells met =>
      cases ho
      exact ⟨met n, (cells n).symm.trans hc⟩
  | @ended s p positive cells met =>
      obtain ⟨u, t, hut, hlen, hget, -⟩ := cells_of_endBefore positive ho.symm
      rw [hget] at hc
      have hn := (List.getElem?_eq_some_iff.mp hc).1
      refine ⟨met n (by omega), ?_⟩
      rw [← cells n (by omega), hut, List.getElem?_append_left hn, hc]

/-- Right after the end of the outcome neither list requires an argument. -/
theorem Outcome.optional_of_end (h : Outcome meet f g (some r)) {n : ℕ}
    (hend : r.cellAt n = none) (hbefore : ∀ m < n, r.cellAt m ≠ none) {c : Cell}
    (hc : Cell.common meet (f n) (g n) = some c) : c.presence = .optional := by
  generalize ho : some r = o at h
  cases h with
  | looped positive cells met =>
      cases ho
      rw [cells n, hc] at hend
      cases hend
  | @ended s p positive cells met =>
      obtain ⟨u, t, hut, hlen, hget, hopt⟩ := cells_of_endBefore positive ho.symm
      -- the list has exactly the cells of `u`
      obtain rfl : n = u.length := by
        rw [hget, List.getElem?_eq_none_iff] at hend
        by_contra hne
        apply hbefore u.length (by omega)
        rw [hget, List.getElem?_eq_none (Nat.le_refl _)]
      rw [← cells _ hlen, hut, List.getElem?_append_right (Nat.le_refl _), Nat.sub_self,
        ← List.head?_eq_getElem?] at hc
      exact hopt c hc

theorem exists_outcome (ha : a.WellFormed) (hb : b.WellFormed) :
    ∃ o, a.intersect b = o.map normalizeOutermost ∧
      Outcome (Shape.meetWith intersect) a.cellAt b.cellAt o := by
  rw [intersect_eq_intersectWith ha hb]
  exact outcome_intersectWith ha.positive hb.positive intersect

/-- Intersecting is commutative, up to the very runs of the result. -/
theorem intersect_comm (ha : a.WellFormed) (hb : b.WellFormed) :
    a.intersect b = b.intersect a := by
  induction ha generalizing b with
  | @intro a here elements ih =>
      have ha : a.WellFormed := .intro here elements
      obtain ⟨o, ho, houtcome⟩ := exists_outcome ha hb
      rw [ho]
      apply Outcome.normalizeOutermost_eq hb ha
      apply houtcome.swap
      intro n c d hc hd
      obtain ⟨q, hq, rfl⟩ := mem_runs_of_cellAt hc
      obtain ⟨r, hr, rfl⟩ := mem_runs_of_cellAt hd
      exact Shape.meetWith_comm fun l m hl hm => ih q hq l hl (hb.elements hr hm)

/-! ### Normal forms -/

/-- The element lists of the list are in normal form. -/
def ElementsNormal (l : ArgList) : Prop :=
  ∀ r ∈ l.runs, ∀ m, r.shape.elements? = some m → m.normalize = m

instance (l : ArgList) : Decidable l.ElementsNormal :=
  decidable_of_iff (∀ r ∈ l.runs, ∀ m ∈ r.shape.elements?, m.normalize = m) Iff.rfl

end ArgList

namespace ArgList
variable {a b r : ArgList}

theorem ElementsNormal.shape {n : ℕ} {c : Cell} (h : a.ElementsNormal)
    (hc : a.cellAt n = some c) : c.shape.normalize = c.shape := by
  obtain ⟨r, hr, rfl⟩ := mem_runs_of_cellAt hc
  exact (Shape.normalize_eq_iff _).mpr (h r hr)

theorem elementsNormal_of_normalize_eq (ha : a.Positive) (h : a.normalize = a) :
    a.ElementsNormal := by
  intro r hr
  exact (Shape.normalize_eq_iff _).mp (shape_normalize_eq ha h hr)

/-- With element lists in normal form, only the outermost list is left to be brought there. -/
theorem normalize_eq_normalizeOutermost (ha : a.Positive)
    (h : ∀ n c, a.cellAt n = some c → c.shape.normalize = c.shape) :
    a.normalize = a.normalizeOutermost := by
  apply (normal_normalize ha).ext (normal_normalizeOutermost ha)
  funext n
  rw [cellAt_normalize ha, cellAt_normalizeOutermost ha]
  cases hc : a.cellAt n with
  | none => rfl
  | some c => rw [Option.map_some, Cell.normalize, h n c hc]

end ArgList

theorem Shape.normalize_meetWith {lists : ArgList → ArgList → Option ArgList} {s t u : Shape}
    (hs : s.normalize = s) (ht : t.normalize = t)
    (hlists : ∀ l m r, s.elements? = some l → t.elements? = some m → lists l m = some r →
      r.normalize = r)
    (h : s.meetWith lists t = some u) : u.normalize = u := by
  rw [normalize_eq_iff] at hs ht ⊢
  intro m hm
  cases s with
  | plain k =>
      cases t with
      | plain l =>
          simp only [meetWith] at h
          split_ifs at h <;> cases h <;> cases hm
      | compound l j q =>
          simp only [meetWith] at h
          split_ifs at h <;> cases h <;> exact ht m hm
  | compound k i r =>
      cases t with
      | plain l =>
          simp only [meetWith] at h
          split_ifs at h <;> cases h <;> exact hs m hm
      | compound l j q =>
          simp only [meetWith] at h
          split_ifs at h
          obtain ⟨v, hv, rfl⟩ := Option.map_eq_some_iff.mp h
          cases hm
          exact hlists _ _ v rfl rfl hv

namespace ArgList
variable {a b r : ArgList}

/-- An intersection is in normal form. -/
theorem normalize_intersect (ha : a.WellFormed) (hb : b.WellFormed) (ha' : a.ElementsNormal)
    (hb' : b.ElementsNormal) (h : a.intersect b = some r) : r.normalize = r := by
  induction ha generalizing b r with
  | @intro a here elements ih =>
      have ha : a.WellFormed := .intro here elements
      obtain ⟨o, ho, houtcome⟩ := exists_outcome ha hb
      rw [ho] at h
      obtain ⟨l, rfl, rfl⟩ := Option.map_eq_some_iff.mp h
      have hl := houtcome.positive l rfl
      rw [normalize_normalizeOutermost hl]
      apply normalize_eq_normalizeOutermost hl
      intro n c hc
      obtain ⟨⟨q, d, u, hq, hd, hu⟩, hcommon⟩ := houtcome.cells_of_some hc
      rw [hq, hd, Cell.common, hu] at hcommon
      cases hcommon
      refine Shape.normalize_meetWith (ha'.shape hq) (hb'.shape hd) (fun l m v hl hm hv => ?_) hu
      obtain ⟨q, hqm, rfl⟩ := mem_runs_of_cellAt hq
      obtain ⟨d, hdm, rfl⟩ := mem_runs_of_cellAt hd
      have hlw : l.WellFormed := elements q hqm l hl
      have hmw := hb.elements hdm hm
      exact ih q hqm l hl hmw (elementsNormal_of_normalize_eq hlw.positive (ha' q hqm l hl))
        (elementsNormal_of_normalize_eq hmw.positive (hb' d hdm m hm)) hv

theorem wellFormed_unconstrained : unconstrained.WellFormed := by
  decide

/-- Any number of arguments of any shape: intersecting with that changes nothing but the form. -/
theorem intersect_unconstrained (ha : a.WellFormed) (ha' : a.ElementsNormal) :
    a.intersect unconstrained = some a.normalize := by
  have houtcome : Outcome (Shape.meetWith intersect) a.cellAt unconstrained.cellAt (some a) := by
    refine outcome_some ha.positive (fun k c hc => ?_) (fun k c _ => ?_) (fun k hk => hk)
      fun k d _ hd => ?_
    · rw [hc, cellAt_unconstrained, common_any, Presence.combine_optional]
    · rw [cellAt_unconstrained]
      exact meets_any c .optional
    · rw [cellAt_unconstrained] at hd
      cases hd
      rfl
  rw [← houtcome.normalizeOutermost_eq ha wellFormed_unconstrained, Option.map_some,
    normalize_eq_normalizeOutermost ha.positive fun n c hc => ha'.shape hc]

/-- Intersecting is commutative and yields normal forms, and the list of any arguments is its
unit. -/
theorem intersect_laws (ha : a.WellFormed) (hb : b.WellFormed) (ha' : a.ElementsNormal)
    (hb' : b.ElementsNormal) :
    a.intersect b = b.intersect a ∧ (∀ r, a.intersect b = some r → r.normalize = r) ∧
      a.intersect unconstrained = some a.normalize :=
  ⟨intersect_comm ha hb, fun _ h => normalize_intersect ha hb ha' hb' h,
    intersect_unconstrained ha ha'⟩

/-- Loops of two and of three arguments that end at their fourth argument, where sequences of
arrays meet characters. -/
theorem intersect_laws_loops :
    let c : Run := ⟨1, .optional, .plain (.ofList [.char, .array])⟩
    let s : Run := ⟨1, .optional, .compound .sequences [⟨1, .required, .any⟩] []⟩
    let t : Run := ⟨1, .required, .plain (.ofList [.char])⟩
    let a : ArgList := ⟨[], [s, c]⟩
    let b : ArgList := ⟨[c], [c, c, t]⟩
    (a.WellFormed ∧ b.WellFormed ∧ a.ElementsNormal ∧ b.ElementsNormal) ∧
      a.intersect b = b.intersect a ∧ (∀ r, a.intersect b = some r → r.normalize = r) ∧
        a.intersect unconstrained = some a.normalize := by
  refine ⟨by decide, intersect_laws ?_ ?_ ?_ ?_⟩ <;> decide

end ArgList

end CatalogLint
