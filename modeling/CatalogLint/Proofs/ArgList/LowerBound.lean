import CatalogLint.Proofs.ArgList.Comparison
import CatalogLint.Proofs.ArgList.Meet

/-!
# Intersections as lower bounds

What two lists have in common is accepted as a subset of the first list when intersecting it with
that list changes nothing. For plain shapes it never does. A compound shape that only a plain one
has narrowed, say from sequences to arrays, does not meet any compound shape again, not even the
one that it comes from. Intersections without such shapes are below both lists
(`intersect_absorb`), and all others are not below one of them
(`agrees_subset_iff_elementwise`).
-/
namespace CatalogLint
open Sequence

theorem Presence.combine_combine (p q : Presence) : p.combine (p.combine q) = p.combine q := by
  cases p <;> cases q <;> rfl

theorem Kinds.inter_inter_self (k l : Kinds) : k.inter (k.inter l) = k.inter l := by
  simp only [inter, ← BitVec.and_assoc, BitVec.and_self]

theorem Kinds.inter_any (k : Kinds) : k.inter .any = k := by
  rw [inter, any, BitVec.and_allOnes]

theorem Kinds.inter_self (k : Kinds) : k.inter k = k := by
  simp [inter]

/-- Neither of the two compound types is part of the other. -/
theorem Kinds.eq_of_inter {k l : Kinds} (hk : k = .sequences ∨ k = .tables)
    (hl : k.inter l = .sequences ∨ k.inter l = .tables) : k.inter l = k := by
  have hdisjoint : Kinds.sequences.inter .tables ≠ .tables ∧
      Kinds.tables.inter .sequences ≠ .sequences := by decide
  have hself := Kinds.inter_inter_self k l
  rcases hk with rfl | rfl
  · rcases hl with hl | hl
    · exact hl
    · rw [hl] at hself
      exact absurd hself hdisjoint.1
  · rcases hl with hl | hl
    · rw [hl] at hself
      exact absurd hself hdisjoint.2
    · exact hl

namespace Shape
variable {lists : ArgList → ArgList → Option ArgList} {s t u : Shape}

theorem WellFormed.meetWith (hs : s.WellFormed) (ht : t.WellFormed)
    (hlists : ∀ l m r, s.elements? = some l → t.elements? = some m → lists l m = some r →
      r.WellFormed)
    (h : s.meetWith lists t = some u) : u.WellFormed := by
  cases s with
  | plain k =>
      cases t with
      | plain l =>
          simp only [Shape.meetWith] at h
          split_ifs at h with h₁ h₂ h₃ <;> cases h
          · exact ht
          · exact hs
          · exact ⟨fun _ => eq_false_of_ne_true h₃, fun m hm => by cases hm⟩
      | compound l j q =>
          simp only [Shape.meetWith] at h
          split_ifs at h <;> cases h <;> exact ⟨(fun hc => by cases hc), ht.elements⟩
  | compound k i r =>
      cases t with
      | plain l =>
          simp only [Shape.meetWith] at h
          split_ifs at h <;> cases h <;> exact ⟨(fun hc => by cases hc), hs.elements⟩
      | compound l j q =>
          simp only [Shape.meetWith] at h
          split_ifs at h
          obtain ⟨v, hv, rfl⟩ := Option.map_eq_some_iff.mp h
          refine ⟨(fun hc => by cases hc), ?_⟩
          rintro m ⟨⟩
          exact hlists _ _ v rfl rfl hv

/-- A plain shape meets what it has left of another one. -/
theorem plain_meetWith_absorb {k : Kinds} (hk : k.isEmpty = false)
    (h : (plain k).meetWith lists t = some u) : (plain k).meetWith lists u = some u := by
  cases t with
  | plain l =>
      simp only [meetWith] at h
      split_ifs at h with h₁ h₂ h₃ <;> cases h
      · rw [meetWith, if_pos h₁]
      · simp [meetWith, h₁, Kinds.inter_self, hk]
      · simp only [meetWith, if_neg h₁, Kinds.inter_inter_self, if_neg h₃]
        split_ifs with h₄
        · -- only the set of all categories has them all in common with another one
          have hany := Kinds.inter_inter_self l k
          rw [Kinds.inter_comm l k, h₄, Kinds.inter_any] at hany
          exact absurd hany h₂
        · rfl
  | compound l j q =>
      simp only [meetWith] at h
      split_ifs at h with h₁ h₂ <;> cases h
      · rw [meetWith, if_pos h₁]
      · simp only [meetWith, if_neg h₁, Kinds.inter_inter_self, if_neg h₂]

/-- A compound shape meets what it has left of another one, if it has not been narrowed and
element lists do so. -/
theorem compound_meetWith_absorb {k : Kinds} {i r : List Run}
    (hk : k = .sequences ∨ k = .tables) (hu : u.Elementwise)
    (hself : lists ⟨i, r⟩ ⟨i, r⟩ = some ⟨i, r⟩)
    (hlists : ∀ l m, t.elements? = some l → lists ⟨i, r⟩ l = some m → u.elements? = some m →
      lists ⟨i, r⟩ m = some m)
    (h : (compound k i r).meetWith lists t = some u) :
    (compound k i r).meetWith lists u = some u := by
  have hsame : (compound k i r).meetWith lists (compound k i r) = some (compound k i r) := by
    simp only [meetWith, true_and, if_pos hk, hself, Option.map_some]
  cases t with
  | plain l =>
      simp only [meetWith] at h
      split_ifs at h with h₁ h₂ <;> cases h
      · exact hsame
      · rw [Kinds.eq_of_inter hk (hu rfl)]
        exact hsame
  | compound l j q =>
      simp only [meetWith] at h
      split_ifs at h with h₁
      obtain ⟨m, hm, rfl⟩ := Option.map_eq_some_iff.mp h
      simp only [meetWith, true_and, if_pos hk, hlists _ m rfl hm rfl, Option.map_some]

end Shape

namespace ArgList
variable {a b r : ArgList}

theorem wellFormed_of_cells (ha : a.Positive)
    (h : ∀ n c, a.cellAt n = some c → c.shape.WellFormed) : a.WellFormed := by
  apply wellFormed_of_runs
  intro r hr
  obtain ⟨n, hn⟩ := exists_cellAt_of_mem_runs ha hr
  exact ⟨(positive_iff a).mp ha r hr, h n r.cell hn⟩

/-- The runs of an intersection are where the shapes of both lists meet. -/
theorem meets_of_intersect (ha : a.WellFormed) (hb : b.WellFormed) (h : a.intersect b = some r)
    {n : ℕ} {c : Cell} (hc : r.cellAt n = some c) : ∃ q d, a.cellAt n = some q ∧
      b.cellAt n = some d ∧ q.shape.meetWith intersect d.shape = some c.shape ∧
        c.presence = q.presence.combine d.presence := by
  obtain ⟨o, ho, houtcome⟩ := exists_outcome ha hb
  rw [ho] at h
  obtain ⟨l, rfl, rfl⟩ := Option.map_eq_some_iff.mp h
  rw [cellAt_normalizeOutermost (houtcome.positive l rfl)] at hc
  obtain ⟨⟨q, d, u, hq, hd, hu⟩, hcommon⟩ := houtcome.cells_of_some hc
  rw [hq, hd, Cell.common, hu] at hcommon
  cases hcommon
  exact ⟨q, d, hq, hd, hu, rfl⟩

theorem normal_of_intersect (ha : a.WellFormed) (hb : b.WellFormed)
    (h : a.intersect b = some r) : r.Normal := by
  obtain ⟨o, ho, houtcome⟩ := exists_outcome ha hb
  rw [ho] at h
  obtain ⟨l, rfl, rfl⟩ := Option.map_eq_some_iff.mp h
  exact normal_normalizeOutermost (houtcome.positive l rfl)

/-- Intersections are well-formed. -/
theorem WellFormed.intersect (ha : a.WellFormed) (hb : b.WellFormed)
    (h : a.intersect b = some r) : r.WellFormed := by
  induction ha generalizing b r with
  | @intro a here elements ih =>
      have ha : a.WellFormed := .intro here elements
      apply wellFormed_of_cells (normal_of_intersect ha hb h).positive
      intro n c hc
      obtain ⟨q, d, hq, hd, hu, -⟩ := meets_of_intersect ha hb h hc
      refine (ha.shape hq).meetWith (hb.shape hd) (fun l m v hl hm hv => ?_) hu
      obtain ⟨q, hqm, rfl⟩ := mem_runs_of_cellAt hq
      obtain ⟨d, hdm, rfl⟩ := mem_runs_of_cellAt hd
      exact ih q hqm l hl (hb.elements hdm hm) hv

/-- Right after the end of an intersection neither list requires an argument. -/
theorem optional_of_intersect (ha : a.WellFormed) (hb : b.WellFormed)
    (h : a.intersect b = some r) {n : ℕ} (hend : r.cellAt n = none)
    (hbefore : ∀ m < n, r.cellAt m ≠ none) {c : Cell} (hc : a.cellAt n = some c) :
    c.presence = .optional := by
  obtain ⟨o, ho, houtcome⟩ := exists_outcome ha hb
  rw [ho] at h
  obtain ⟨l, rfl, rfl⟩ := Option.map_eq_some_iff.mp h
  have hcell := cellAt_normalizeOutermost (houtcome.positive l rfl)
  rw [hcell] at hend hbefore
  have hopt : ∀ e, Cell.common (Shape.meetWith intersect) (a.cellAt n) (b.cellAt n) = some e →
      e.presence = .optional := fun e => houtcome.optional_of_end hend hbefore
  rw [hc] at hopt
  cases hd : b.cellAt n with
  | none =>
      rw [hd] at hopt
      exact hopt ⟨c.presence, .nothing⟩ rfl
  | some d =>
      rw [hd] at hopt
      exact ((Presence.combine_eq_optional _ _).mp (hopt _ rfl)).1

/-- A list that says of every argument what the first list and it say together, and needs no more
than that one, is its own intersection with it. -/
theorem intersect_eq_of_cells (ha : a.WellFormed) (hr : r.WellFormed) (hn : r.Normal)
    (h : ∀ n c, r.cellAt n = some c → ∃ q, a.cellAt n = some q ∧
      q.shape.meetWith intersect c.shape = some c.shape ∧
        c.presence = q.presence.combine c.presence)
    (hend : ∀ n c, r.cellAt n = none → (∀ m < n, r.cellAt m ≠ none) → a.cellAt n = some c →
      c.presence = .optional) : a.intersect r = some r := by
  let meet : Shape → Shape → Option Shape := fun s t => t.meetWith intersect s
  have hcommon : ∀ n c, r.cellAt n = some c →
      r.cellAt n = Cell.common meet (r.cellAt n) (a.cellAt n) ∧
        Cell.Meets meet (r.cellAt n) (a.cellAt n) := by
    intro n c hc
    obtain ⟨q, hq, hmeet, hp⟩ := h n c hc
    refine ⟨?_, c, q, c.shape, hc, hq, hmeet⟩
    simp only [hc, hq, Cell.common, meet, hmeet, Option.getD_some, Presence.combine_comm c.presence]
    rw [← hp]
  have houtcome : Outcome meet r.cellAt a.cellAt (some r) := by
    by_cases hfin : r.repeated = []
    · obtain ⟨s, t⟩ := r
      obtain rfl : t = [] := hfin
      have hpos := hr.positive.1
      have hcell : ∀ n < Segment.extent s, ∃ c, (finite s).cellAt n = some c := by
        intro n hlt
        rw [cellAt_finite]
        exact ⟨_, List.getElem?_eq_getElem (by simpa using hlt)⟩
      have hlast : (finite s).cellAt (Segment.extent s) = none := by
        rw [cellAt_finite, List.getElem?_eq_none (by simp)]
      refine outcome_finite hpos (fun n hlt => ?_) (fun n hlt => ?_) hlast fun d hd => ?_
      · obtain ⟨c, hc⟩ := hcell n hlt
        exact (hcommon n c hc).1
      · obtain ⟨c, hc⟩ := hcell n hlt
        exact (hcommon n c hc).2
      · refine hend _ d hlast (fun m hm => ?_) hd
        obtain ⟨c, hc⟩ := hcell m hm
        exact Option.ne_none_iff_exists'.mpr ⟨c, hc⟩
    · have hcell := exists_cellAt_of_loop hfin hr.positive
      refine .looped hr.positive (fun n => ?_) fun n => ?_
      · obtain ⟨c, hc⟩ := hcell n
        exact (hcommon n c hc).1
      · obtain ⟨c, hc⟩ := hcell n
        exact (hcommon n c hc).2
  have hself : r.normalizeOutermost = r :=
    (normal_normalizeOutermost hr.positive).ext hn (cellAt_normalizeOutermost hr.positive)
  rw [← (houtcome.swap fun _ _ _ _ _ => rfl).normalizeOutermost_eq ha hr, Option.map_some, hself]

/-- Intersecting with the result changes nothing any more, if all its compound shapes are those
of sequences and of tables. -/
theorem intersect_absorb (ha : a.WellFormed) (hb : b.WellFormed) (ha' : a.Elementwise)
    (han : a.ElementsNormal) (hbn : b.ElementsNormal) (h : a.intersect b = some r)
    (hr : r.Elementwise) : a.intersect r = some r := by
  induction ha generalizing b r with
  | @intro a here elements ih =>
      have ha : a.WellFormed := .intro here elements
      refine intersect_eq_of_cells ha (ha.intersect hb h) (normal_of_intersect ha hb h)
        (fun n c hc => ?_) fun n c hend hbefore => optional_of_intersect ha hb h hend hbefore
      obtain ⟨q, d, hq, hd, hu, hp⟩ := meets_of_intersect ha hb h hc
      refine ⟨q, hq, ?_, by rw [hp, Presence.combine_combine]⟩
      have hshape := ha.shape hq
      obtain ⟨p, hpm, rfl⟩ := mem_runs_of_cellAt hq
      obtain ⟨e, hem, rfl⟩ := mem_runs_of_cellAt hd
      obtain ⟨v, hvm, rfl⟩ := mem_runs_of_cellAt hc
      have hkinds : p.shape.isCompound = false → p.shape.kinds.isEmpty = false := hshape.kinds
      have hcompound := ha'.shape hpm
      have hnormal := han p hpm
      have hwf : ∀ l, p.shape.elements? = some l → l.WellFormed := elements p hpm
      have habsorb : ∀ l m w, p.shape.elements? = some l → m.WellFormed → m.ElementsNormal →
          l.intersect m = some w → w.Elementwise → l.intersect w = some w := by
        intro l m w hl hm hmn hw hwe
        exact ih p hpm l hl hm (ha'.elements hpm hl)
          (elementsNormal_of_normalize_eq (hwf l hl).positive (hnormal l hl)) hmn hw hwe
      change p.shape.meetWith intersect e.shape = some v.shape at hu
      change p.shape.meetWith intersect v.shape = some v.shape
      cases hps : p.shape with
      | plain k =>
          rw [hps] at hu hkinds
          exact Shape.plain_meetWith_absorb (hkinds rfl) hu
      | compound k i t =>
          rw [hps] at hu hcompound hnormal hwf habsorb
          have hself := hnormal _ rfl
          have hel := ha'.elements hpm (by rw [hps]; rfl)
          refine Shape.compound_meetWith_absorb (hcompound rfl) (hr.shape hvm) ?_
            (fun l m hl hm hmu => ?_) hu
          · -- an element list has itself in common with the list of any arguments
            have hunit := intersect_unconstrained (hwf _ rfl)
              (elementsNormal_of_normalize_eq (hwf _ rfl).positive hself)
            rw [hself] at hunit
            exact habsorb _ _ _ rfl wellFormed_unconstrained (by decide) hunit hel
          · have hlw := hb.elements hem hl
            exact habsorb _ _ _ rfl hlw
              (elementsNormal_of_normalize_eq hlw.positive (hbn e hem l hl)) hm
              (hr.elements hvm hmu)

/-! ### The comparison -/

/-- Comparing for a subset is intersecting, also with the list of no arguments. -/
theorem agrees_subset_eq (ha : a.WellFormed) :
    agrees .subset a r = true ↔ (a.intersect r).map normalize = some r := by
  rw [agrees, decide_eq_true_iff]
  split_ifs with hempty
  · obtain ⟨initial, repeated⟩ := r
    obtain ⟨rfl, rfl⟩ : initial = [] ∧ repeated = [] := by simpa [isEmpty] using hempty
    rw [intersectEmpty_eq ha]
    rfl
  · rfl

/-- For lists in normal form it is enough that intersecting changes nothing. -/
theorem agrees_subset_iff_intersect (ha : a.WellFormed) (hr : r.WellFormed)
    (han : a.ElementsNormal) (hrn : r.normalize = r) :
    agrees .subset a r = true ↔ a.intersect r = some r := by
  rw [agrees_subset_eq ha, Option.map_eq_some_iff]
  constructor
  · rintro ⟨m, hm, hmr⟩
    rw [normalize_intersect ha hr han (elementsNormal_of_normalize_eq hr.positive hrn) hm] at hmr
    rw [hm, hmr]
  · intro h
    exact ⟨r, h, hrn⟩

end ArgList

namespace Shape
variable {lists : ArgList → ArgList → Option ArgList} {s t u : Shape}

theorem isCompound_iff : s.isCompound = true ↔ ∃ l, s.elements? = some l := by
  cases s <;> simp [isCompound, elements?]

/-- Compound shapes meet when they are of one type, and their element lists meet. -/
theorem compound_meetWith_compound {k l : Kinds} {i r j q : List Run}
    (h : (compound k i r).meetWith lists (compound l j q) = some u) :
    k = l ∧ ∃ m, lists ⟨i, r⟩ ⟨j, q⟩ = some m ∧ u = compound k m.initial m.repeated := by
  simp only [meetWith] at h
  split_ifs at h with hk
  obtain ⟨m, hm, rfl⟩ := Option.map_eq_some_iff.mp h
  exact ⟨hk.1, m, hm, rfl⟩

/-- Where the elements that a meet describes come from, if it meets both shapes again: from one
of them, or from the element lists of both. -/
theorem elements_of_meetWith (hu : s.meetWith lists t = some u)
    (hsu : s.meetWith lists u = some u) (htu : t.meetWith lists u = some u) {m : ArgList}
    (hm : u.elements? = some m) :
    (∃ v ∈ [s, t], v.isCompound = true ∧ v.kinds = u.kinds ∧ v.elements? = some m) ∨
      ∃ l l', s.elements? = some l ∧ t.elements? = some l' ∧ s.kinds = u.kinds ∧
        lists l l' = some m ∧ lists l m = some m ∧ lists l' m = some m := by
  cases s with
  | plain k =>
      cases t with
      | plain l =>
          -- no elements come from two plain shapes
          simp only [meetWith] at hu
          split_ifs at hu <;> cases hu <;> cases hm
      | compound l j q =>
          cases u with
          | plain v => cases hm
          | compound v x y =>
              obtain ⟨rfl, -⟩ := compound_meetWith_compound htu
              refine .inl ⟨_, List.mem_cons_of_mem _ List.mem_cons_self, rfl, rfl, ?_⟩
              simp only [meetWith] at hu
              split_ifs at hu <;> injection hu with hu <;> injection hu with _ hi hr <;>
                rw [← hm, hi, hr]
  | compound k i r =>
      cases u with
      | plain v => cases hm
      | compound v x y =>
          obtain ⟨rfl, w, hw, hwu⟩ := compound_meetWith_compound hsu
          cases t with
          | plain l =>
              refine .inl ⟨_, List.mem_cons_self, rfl, rfl, ?_⟩
              simp only [meetWith] at hu
              split_ifs at hu <;> injection hu with hu <;> injection hu with _ hi hr <;>
                rw [← hm, hi, hr]
          | compound l j q =>
              obtain ⟨rfl, o, ho, hou⟩ := compound_meetWith_compound hu
              obtain ⟨-, w', hw', hwu'⟩ := compound_meetWith_compound htu
              obtain rfl : ⟨x, y⟩ = m := Option.some.inj hm
              have hsame : ∀ n : ArgList, compound k x y = compound k n.initial n.repeated →
                  n = ⟨x, y⟩ := by
                rintro n hn
                injection hn with _ hi hr
                rw [hi, hr]
              rw [hsame o hou] at ho
              rw [hsame w hwu] at hw
              rw [hsame w' hwu'] at hw'
              exact .inr ⟨_, _, rfl, rfl, rfl, ho, hw, hw'⟩

end Shape

namespace ArgList
variable {a b r : ArgList}

/-- A list that both lists absorb has compound shapes of the two types only. -/
theorem elementwise_of_absorb (ha : a.WellFormed) (hb : b.WellFormed) (ha' : a.Elementwise)
    (hb' : b.Elementwise) (h : a.intersect b = some r) (har : a.intersect r = some r)
    (hbr : b.intersect r = some r) : r.Elementwise := by
  induction ha generalizing b r with
  | @intro a here elements ih =>
      have ha : a.WellFormed := .intro here elements
      have hr := ha.intersect hb h
      -- what both lists and the intersection say at the place of a run
      have hplace : ∀ v ∈ r.runs, ∃ p ∈ a.runs, ∃ e ∈ b.runs,
          p.shape.meetWith intersect e.shape = some v.shape ∧
          p.shape.meetWith intersect v.shape = some v.shape ∧
          e.shape.meetWith intersect v.shape = some v.shape := by
        intro v hv
        obtain ⟨n, hc⟩ := exists_cellAt_of_mem_runs hr.positive hv
        obtain ⟨q, d, hq, hd, hu, -⟩ := meets_of_intersect ha hb h hc
        obtain ⟨q', c, hq', hc', hqu, -⟩ := meets_of_intersect ha hr har hc
        obtain ⟨d', c', hd', hc'', hdu, -⟩ := meets_of_intersect hb hr hbr hc
        cases hq.symm.trans hq'
        cases hd.symm.trans hd'
        cases hc.symm.trans hc'
        cases hc.symm.trans hc''
        obtain ⟨p, hp, rfl⟩ := mem_runs_of_cellAt hq
        obtain ⟨e, he, rfl⟩ := mem_runs_of_cellAt hd
        exact ⟨p, hp, e, he, hu, hqu, hdu⟩
      refine .intro (fun v hv => ?_) fun v hv m hm => ?_
      · obtain ⟨p, hp, e, he, hu, hpu, heu⟩ := hplace v hv
        intro hcompound
        obtain ⟨m, hm⟩ := Shape.isCompound_iff.mp hcompound
        obtain ⟨w, hw, hwc, hk, -⟩ | ⟨l, l', hl, -, hk, -⟩ :=
          Shape.elements_of_meetWith hu hpu heu hm
        · rw [← hk]
          simp only [List.mem_cons, List.not_mem_nil, or_false] at hw
          rcases hw with rfl | rfl
          · exact ha'.shape hp hwc
          · exact hb'.shape he hwc
        · rw [← hk]
          exact ha'.shape hp (Shape.isCompound_iff.mpr ⟨l, hl⟩)
      · obtain ⟨p, hp, e, he, hu, hpu, heu⟩ := hplace v hv
        obtain ⟨w, hw, -, -, hwm⟩ | ⟨l, l', hl, hl', -, hmeet, hlm, hlm'⟩ :=
          Shape.elements_of_meetWith hu hpu heu hm
        · simp only [List.mem_cons, List.not_mem_nil, or_false] at hw
          rcases hw with rfl | rfl
          · exact ha'.elements hp hwm
          · exact hb'.elements he hwm
        · exact ih p hp l hl (hb.elements he hl') (ha'.elements hp hl) (hb'.elements he hl')
            hmeet hlm hlm'

/-- An intersection is accepted as a subset of both lists exactly when all its compound shapes are
those of sequences and of tables, and none has been narrowed to arrays or to ranges alone. -/
theorem agrees_subset_iff_elementwise (ha : a.WellFormed) (hb : b.WellFormed) (ha' : a.Elementwise)
    (hb' : b.Elementwise) (han : a.normalize = a) (hbn : b.normalize = b)
    (h : a.intersect b = some r) :
    (agrees .subset a r = true ∧ agrees .subset b r = true) ↔ r.Elementwise := by
  have han := elementsNormal_of_normalize_eq ha.positive han
  have hbn := elementsNormal_of_normalize_eq hb.positive hbn
  have hr := ha.intersect hb h
  have hrn := normalize_intersect ha hb han hbn h
  rw [agrees_subset_iff_intersect ha hr han hrn, agrees_subset_iff_intersect hb hr hbn hrn]
  constructor
  · rintro ⟨har, hbr⟩
    exact elementwise_of_absorb ha hb ha' hb' h har hbr
  · intro hre
    refine ⟨intersect_absorb ha hb ha' han hbn h hre, ?_⟩
    rw [intersect_comm ha hb] at h
    exact intersect_absorb hb ha hb' hbn han h hre

end ArgList

end CatalogLint
