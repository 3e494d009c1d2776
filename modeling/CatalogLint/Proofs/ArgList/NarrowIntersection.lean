import CatalogLint.Proofs.ArgList.Determined
import CatalogLint.Proofs.ArgList.Narrow

/-!
# Narrowing is intersection

What narrowing says about arguments can be said by a list: to require arguments, to end a list,
and to give arguments a shape come to the intersection with a list that says only that
(`narrowing_eq_intersect`). For each of them the narrowed list, or the place where it had to end,
is an outcome of that intersection, and the outcome determines the normal form.
-/
namespace CatalogLint
open Sequence

theorem Presence.combine_optional (p : Presence) : p.combine .optional = p := by
  cases p <;> rfl

theorem Shape.meetWith_any (lists : ArgList → ArgList → Option ArgList) (s : Shape) :
    s.meetWith lists .any = some s := by
  cases s with
  | plain k =>
      simp only [any, meetWith]
      split_ifs with h
      · rw [h]
      · rfl
  | compound k i r => rfl

namespace ArgList

variable {l m : ArgList} {t : Shape} {n k first last stop : ℕ}

/-- Well-formedness, run by run. -/
theorem wellFormed_of_runs (h : ∀ r ∈ l.runs, 0 < r.count ∧ r.shape.WellFormed) :
    l.WellFormed :=
  .intro (fun r hr => ⟨(h r hr).1, (h r hr).2.kinds⟩) fun r hr => (h r hr).2.elements

variable {meet : Shape → Shape → Option Shape} {g : ℕ → Option Cell} {c : Cell}

/-- A finite list of what two lists say together, of which one ends there and the other one
requires nothing more. -/
theorem outcome_finite {f : ℕ → Option Cell} {s : Segment} (hs : Segment.Positive s)
    (cells : ∀ k < Segment.extent s, (finite s).cellAt k = Cell.common meet (f k) (g k))
    (met : ∀ k < Segment.extent s, Cell.Meets meet (f k) (g k))
    (hend : f (Segment.extent s) = none)
    (hlast : ∀ d, g (Segment.extent s) = some d → d.presence = .optional) :
    Outcome meet f g (some (finite s)) := by
  have hoptional : (g (Segment.extent s)).map Cell.presence ≠ some .required := by
    rw [ne_eq, Option.map_eq_some_iff]
    rintro ⟨d, hd, hrequired⟩
    rw [hlast d hd] at hrequired
    cases hrequired
  rw [← endBefore_of_ne s hoptional]
  refine .ended hs (fun k hk => ?_) met
  rcases Nat.lt_or_eq_of_le hk with hk | rfl
  · rw [← cells k hk, cellAt_finite, Segment.cellsBefore,
      List.getElem?_append_left (by simpa using hk)]
  · rw [getElem?_cellsBefore_extent, hend]
    cases g (Segment.extent s) <;> rfl

/-- A list that says at every place what two lists say together, where the second one requires
nothing after the end of the first. -/
theorem outcome_some (hm : m.Positive)
    (cells : ∀ k c, l.cellAt k = some c → m.cellAt k = Cell.common meet (some c) (g k))
    (met : ∀ k c, l.cellAt k = some c → Cell.Meets meet (some c) (g k))
    (ends : ∀ k, l.cellAt k = none → m.cellAt k = none)
    (last : ∀ k d, l.cellAt k = none → g k = some d → d.presence = .optional) :
    Outcome meet l.cellAt g (some m) := by
  have hsome : ∀ k, m.cellAt k ≠ none → ∃ c, l.cellAt k = some c := by
    intro k hk
    exact Option.ne_none_iff_exists'.mp fun hnone => hk (ends k hnone)
  have hcells : ∀ k, m.cellAt k ≠ none → m.cellAt k = Cell.common meet (l.cellAt k) (g k) := by
    intro k hk
    obtain ⟨c, hc⟩ := hsome k hk
    rw [hc, cells k c hc]
  have hmet : ∀ k, m.cellAt k ≠ none → Cell.Meets meet (l.cellAt k) (g k) := by
    intro k hk
    obtain ⟨c, hc⟩ := hsome k hk
    rw [hc]
    exact met k c hc
  by_cases hfin : m.isFinite = true
  · obtain ⟨initial, repeated⟩ := m
    obtain rfl : repeated = [] := isFinite_iff.mp hfin
    have hbefore : ∀ k < Segment.extent initial, cellAt ⟨initial, []⟩ k ≠ none := by
      intro k hk
      rw [ne_eq, cellAt_eq_none_iff hm]
      exact fun hends => absurd hends.2 (Nat.not_le.mpr hk)
    have hend : l.cellAt (Segment.extent initial) = none := by
      by_contra hne
      obtain ⟨c, hc⟩ := Option.ne_none_iff_exists'.mp hne
      obtain ⟨c', d, t, -, hd, -⟩ := met _ c hc
      have hcommon := cells _ c hc
      rw [hd, (cellAt_eq_none_iff hm).mpr ⟨hfin, Nat.le_refl _⟩] at hcommon
      cases hcommon
    exact outcome_finite hm.1 (fun k hk => hcells k (hbefore k hk))
      (fun k hk => hmet k (hbefore k hk)) hend fun d hd => last _ d hend hd
  · have hendless : ∀ k, m.cellAt k ≠ none := by
      intro k hk
      exact hfin ((cellAt_eq_none_iff hm).mp hk).1
    exact .looped hm (fun k => hcells k (hendless k)) fun k => hmet k (hendless k)

/-- A list that says what two lists say together up to a place where they contradict each other,
and is ended there. -/
theorem outcome_endAt (hm : m.Positive)
    (cells : ∀ k < stop, m.cellAt k = Cell.common meet (l.cellAt k) (g k))
    (met : ∀ k < stop, Cell.Meets meet (l.cellAt k) (g k)) (hc : m.cellAt stop = some c)
    (hstop : Cell.common meet (l.cellAt stop) (g stop) = some ⟨c.presence, .nothing⟩) :
    Outcome meet l.cellAt g (m.endAt stop) := by
  obtain ⟨s, heq, hs, rfl, hget⟩ := endAt_eq hm hc
  rw [heq]
  -- the place of the contradiction is told from an end by a cell that admits nothing
  refine .ended hs (fun k hk => ?_) met
  rcases Nat.lt_or_eq_of_le hk with hk | rfl
  · rw [← cells k hk, ← hget k hk, Segment.cellsBefore,
      List.getElem?_append_left (by simpa using hk)]
  · rw [getElem?_cellsBefore_extent, hstop]
    rfl

/-! ### Meeting what is known of an argument -/

variable {lists : ArgList → ArgList → Option ArgList}

theorem common_any (c : Cell) (p : Presence) :
    Cell.common (Shape.meetWith lists) (some c) (some ⟨p, .any⟩) =
      some ⟨c.presence.combine p, c.shape⟩ := by
  simp [Cell.common, Shape.meetWith_any]

theorem meets_any (c : Cell) (p : Presence) :
    Cell.Meets (Shape.meetWith lists) (some c) (some ⟨p, .any⟩) :=
  ⟨c, _, c.shape, rfl, rfl, Shape.meetWith_any lists c.shape⟩

section Shaped
variable {q : Prop} [Decidable q]

theorem common_shaped (hc : c.shape.WellFormed) (ht : t.WellFormed) :
    Cell.common (Shape.meetWith intersect) (some c) (some ⟨.optional, if q then t else .any⟩) =
      some ((if q then Cell.narrow t else id) c) := by
  split_ifs
  · rw [Cell.common, Presence.combine_optional, ← Shape.meet_eq hc ht]
    rfl
  · rw [common_any, Presence.combine_optional]
    rfl

theorem meets_shaped (hc : c.shape.WellFormed) (ht : t.WellFormed)
    (hmet : q → c.shape.meet t ≠ none) :
    Cell.Meets (Shape.meetWith intersect) (some c)
      (some ⟨.optional, if q then t else .any⟩) := by
  split_ifs with hq
  · obtain ⟨u, hu⟩ := Option.ne_none_iff_exists'.mp (hmet hq)
    rw [Shape.meet_eq hc ht] at hu
    exact ⟨c, _, u, rfl, rfl, hu⟩
  · exact meets_any c .optional

end Shaped

/-! ### Each way of narrowing -/

section Shaped
variable {p : ℕ → Prop} [DecidablePred p]
  (hg : ∀ k, g k = some ⟨.optional, if p k then t else .any⟩)
include hg

theorem Narrowed.outcome (h : Narrowed t p l m) (hl : l.WellFormed) (ht : t.WellFormed) :
    Outcome (Shape.meetWith intersect) l.cellAt g (some m) := by
  refine outcome_some h.positive (fun k c hc => ?_) (fun k c hc => ?_) (fun k hk => ?_)
    fun k d _ hd => ?_
  · rw [h.cells, hc, hg, common_shaped (hl.shape hc) ht]
    rfl
  · rw [hg]
    exact meets_shaped (hl.shape hc) ht fun hk => h.met k c hk hc
  · rw [h.cells, hk]
    rfl
  · rw [hg] at hd
    cases hd
    rfl

theorem Stopped.outcome (h : Stopped t n stop l m) (hp : ∀ k ≤ stop, p k ↔ n ≤ k)
    (hl : l.WellFormed) (ht : t.WellFormed) :
    Outcome (Shape.meetWith intersect) l.cellAt g (m.endAt stop) := by
  obtain ⟨c, hc, hnone⟩ := h.contradiction
  have hbefore : ∀ k < stop, ∃ d, l.cellAt k = some d :=
    fun k hk => exists_cellAt_of_le hc hk.le
  have hcm : m.cellAt stop = some c := by
    rw [h.cells stop (Nat.le_refl _), hc, if_neg (by omega)]
    rfl
  refine outcome_endAt h.positive (fun k hk => ?_) (fun k hk => ?_) hcm ?_
  · obtain ⟨d, hd⟩ := hbefore k hk
    rw [h.cells k hk.le, hd, hg, common_shaped (hl.shape hd) ht]
    simp only [hp k hk.le, hk, and_true]
    rfl
  · obtain ⟨d, hd⟩ := hbefore k hk
    rw [hd, hg]
    exact meets_shaped (hl.shape hd) ht fun hpk => h.met k d ((hp k hk.le).mp hpk) hk hd
  · have hpstop : p stop := (hp stop (Nat.le_refl _)).mpr h.le
    rw [hc, hg, common_shaped (hl.shape hc) ht, if_pos hpstop, Cell.narrow, hnone]
    rfl

end Shaped

theorem intersectEmpty_eq (hl : l.WellFormed) : l.intersectEmpty = l.intersect empty := by
  have hempty : empty.WellFormed := wellFormed_of_runs nofun
  have hnormal : l.intersectEmpty.map normalizeOutermost = l.intersectEmpty := by
    rw [intersectEmpty]
    split_ifs <;> rfl
  rw [← hnormal]
  apply Outcome.normalizeOutermost_eq hl hempty
  have heq : l.intersectEmpty = endBefore [] ((l.cellAt 0).map Cell.presence) := by
    rw [intersectEmpty, firstPresence_eq hl.positive]
    rcases (l.cellAt 0).map Cell.presence with _ | _ | _ <;> rfl
  rw [heq]
  refine .ended Segment.positive_nil (fun k hk => ?_) fun k hk => absurd hk (Nat.not_lt_zero k)
  obtain rfl : k = 0 := Nat.le_zero.mp hk
  cases l.cellAt 0 <;> rfl

end ArgList

end CatalogLint
