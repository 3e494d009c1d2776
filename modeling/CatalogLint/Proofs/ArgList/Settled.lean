import CatalogLint.Proofs.ArgList.Intersection

/-!
# Settled shapes

Format strings build only some of the shapes there are: plain ones from the types of their
directives, and compound ones whose list of elements is a single required element, or a required
key and value. Such shapes are closed under meeting (`Settled.meet`), and each has a value
(`Settled.inhabited`). The lists that they occur in require all arguments up to some place and
none after it, which intersections keep (`Requires.intersectWith`).
-/
namespace CatalogLint

namespace Kinds

/-- The types of the directives, and what they have in common. -/
def conversions : List Kinds :=
  [.any, ofList [.char], ofList [.integer], ofList [.bool, .integer, .char],
    ofList [.bool, .integer, .char, .pointer], ofList [.integer, .floating],
    ofList [.bool, .integer, .floating, .char, .array, .range]]

/-- How many elements stand for all elements of a value. -/
def arity (k : Kinds) : Option ℕ :=
  if k = .sequences then some 1 else if k = .tables then some 2 else none

theorem inter_conversions : ∀ k ∈ conversions, ∀ l ∈ conversions,
    (k.inter l).isEmpty = false → k.inter l ∈ conversions := by
  decide

theorem arity_eq_some {k : Kinds} {n : ℕ} (h : k.arity = some n) :
    k = .sequences ∧ n = 1 ∨ k = .tables ∧ n = 2 := by
  unfold arity at h
  split_ifs at h with h₁ h₂
  · exact .inl ⟨h₁, (Option.some.inj h).symm⟩
  · exact .inr ⟨h₂, (Option.some.inj h).symm⟩

theorem inter_of_arity {k l : Kinds} {n : ℕ} (hk : k ∈ conversions) (hl : l.arity = some n)
    (h : (k.inter l).isEmpty = false) : k.inter l = l := by
  have hseq : ∀ k ∈ conversions, (k.inter .sequences).isEmpty = false →
      k.inter .sequences = .sequences := by decide
  have htab : ∀ k ∈ conversions, (k.inter .tables).isEmpty = false →
      k.inter .tables = .tables := by decide
  rcases arity_eq_some hl with ⟨rfl, -⟩ | ⟨rfl, -⟩
  · exact hseq k hk h
  · exact htab k hk h

end Kinds

namespace Value

theorem exists_category (c : Category) : ∃ x : Value, x.category = c := by
  cases c with
  | bool => exact ⟨.bool, rfl⟩
  | integer => exact ⟨.integer, rfl⟩
  | floating => exact ⟨.floating, rfl⟩
  | char => exact ⟨.char, rfl⟩
  | array => exact ⟨.array .bool, rfl⟩
  | associative => exact ⟨.associative .bool .bool, rfl⟩
  | range => exact ⟨.range .bool, rfl⟩
  | struct => exact ⟨.struct, rfl⟩
  | pointer => exact ⟨.pointer, rfl⟩

theorem category_mem_of_elements {k : Kinds} {x : Value} {es : List Value}
    (hes : x.elements? = some es) (hk : k.arity = some es.length) : x.category ∈ k := by
  rcases Kinds.arity_eq_some hk with ⟨rfl, h⟩ | ⟨rfl, h⟩
  · cases x <;> cases hes <;> first | (simp only [category]; decide) | cases h
  · cases x <;> cases hes <;> first | (simp only [category]; decide) | cases h

theorem exists_of_elements {k : Kinds} (es : List Value) (hk : k.arity = some es.length) :
    ∃ x : Value, x.category ∈ k ∧ x.elements? = some es := by
  rcases Kinds.arity_eq_some hk with ⟨rfl, h⟩ | ⟨rfl, h⟩
  · obtain ⟨e, rfl⟩ := List.length_eq_one_iff.mp h
    exact ⟨.array e, by simp only [category]; decide, rfl⟩
  · obtain ⟨k, v, rfl⟩ := List.length_eq_two.mp h
    exact ⟨.associative k v, by simp only [category]; decide, rfl⟩

end Value

namespace ArgList

/-- The arguments before place `n` are required, and no others. -/
structure Requires (n : ℕ) (l : ArgList) : Prop where
  positive : l.Positive
  reaches : ∀ m < n, ∃ c, l.cellAt m = some c
  presence : ∀ m c, l.cellAt m = some c → (c.presence = .required ↔ m < n)

/-- The value fits the place. -/
def Admits (l : ArgList) (k : ℕ) (x : Value) : Prop :=
  ∃ c, l.cellAt k = some c ∧ x.Fits c.shape

theorem admits_of_cellAt {l : ArgList} {k : ℕ} {c : Cell} (h : l.cellAt k = some c) (x : Value) :
    l.Admits k x ↔ x.Fits c.shape := by
  simp [Admits, h]

/-- Enough arguments, each of which fits its place. -/
theorem Requires.accepts_iff {l : ArgList} {n : ℕ} (h : l.Requires n) (xs : List Value) :
    l.Accepts xs ↔ n ≤ xs.length ∧ ∀ i x, xs[i]? = some x → l.Admits i x := by
  rw [accepts_iff_follows, Follows, and_comm]
  refine and_congr_left fun _ => ⟨fun hend => ?_, fun hle c hc => ?_⟩
  · by_contra hlt
    obtain ⟨c, hc⟩ := h.reaches xs.length (by omega)
    have hreq := (h.presence _ c hc).mpr (by omega)
    rw [hend c hc] at hreq
    cases hreq
  · have hreq := (h.presence _ c hc).not.mpr (by omega)
    cases hp : c.presence with
    | required => exact absurd hp hreq
    | optional => rfl

theorem backtrack_of_required {s : Segment} (hs : Segment.Positive s)
    (h : ∀ c ∈ Segment.cells s, c.presence = .required) : (finite s).backtrack = none := by
  induction s using List.reverseRecOn with
  | nil => rfl
  | append_singleton s r ih =>
      obtain ⟨hs, hr⟩ := Segment.positive_append.mp hs
      have hr := (Segment.positive_cons.mp hr).1
      have hreq : r.presence = .required := by
        exact h r.cell (Segment.cell_mem_cells (List.mem_append_right s List.mem_cons_self) hr)
      rw [backtrack_concat, Run.isRequired, if_pos (decide_eq_true hreq)]
      apply ih hs
      intro c hc
      exact h c (by rw [Segment.cells_append]; exact List.mem_append_left _ hc)

/-- When required arguments come first, a list is not ended before a required one. -/
theorem endBefore_eq {s : Segment} {p : Option Presence} {n : ℕ} (hs : Segment.Positive s)
    (h : ∀ m c, (Segment.cellsBefore s p)[m]? = some c → (c.presence = .required ↔ m < n)) :
    endBefore s p = if p = some .required then none else some (finite s) := by
  split_ifs with hp
  · subst hp
    have hlt : Segment.extent s < n := by
      exact (h _ _ (getElem?_cellsBefore_extent s _)).mp rfl
    apply backtrack_of_required hs
    intro c hc
    obtain ⟨m, hm, hget⟩ := List.mem_iff_getElem.mp hc
    rw [Segment.length_cells] at hm
    refine (h m c ?_).mpr (by omega)
    rw [Segment.cellsBefore, List.getElem?_append_left (by simpa using hm),
      List.getElem?_eq_getElem (by simpa using hm), hget]
  · exact endBefore_of_ne s hp

variable {a b r : ArgList} {n m : ℕ} {meet : Shape → Shape → Option Shape}

theorem Requires.le_of_none (ha : a.Requires n) {k : ℕ} (hk : a.cellAt k = none) : n ≤ k := by
  by_contra hlt
  obtain ⟨c, hc⟩ := ha.reaches k (by omega)
  rw [hk] at hc
  cases hc

theorem Requires.common (ha : a.Requires n) (hb : b.Requires m) {k : ℕ} {c : Cell}
    (h : Cell.common meet (a.cellAt k) (b.cellAt k) = some c) :
    c.presence = .required ↔ k < max n m := by
  cases hq : a.cellAt k with
  | none =>
      have := ha.le_of_none hq
      cases hd : b.cellAt k with
      | none => simp [hq, hd, Cell.common] at h
      | some d =>
          have := hb.presence k d hd
          rw [hq, hd] at h
          cases h
          rw [this]
          omega
  | some q =>
      have hqn := ha.presence k q hq
      cases hd : b.cellAt k with
      | none =>
          have := hb.le_of_none hd
          rw [hq, hd] at h
          cases h
          rw [hqn]
          omega
      | some d =>
          have hdm := hb.presence k d hd
          rw [hq, hd] at h
          cases h
          dsimp only
          rw [lt_max_iff, ← hqn, ← hdm]
          cases q.presence <;> cases d.presence <;> decide

theorem Requires.exists_common (ha : a.Requires n) (hb : b.Requires m) {k : ℕ}
    (hk : k < max n m) : ∃ c, Cell.common meet (a.cellAt k) (b.cellAt k) = some c := by
  rcases lt_max_iff.mp hk with hk | hk
  · obtain ⟨q, hq⟩ := ha.reaches k hk
    cases hd : b.cellAt k <;> simp [hq, Cell.common]
  · obtain ⟨d, hd⟩ := hb.reaches k hk
    cases hq : a.cellAt k <;> simp [hd, Cell.common]

/-- The common list has what both lists have, and all required arguments. -/
theorem Requires.outcome (ha : a.Requires n) (hb : b.Requires m)
    (h : Outcome meet a.cellAt b.cellAt (some r)) :
    r.Positive ∧ (∀ k < max n m, ∃ c, r.cellAt k = some c) ∧
      ∀ k c, r.cellAt k = some c → Cell.Meets meet (a.cellAt k) (b.cellAt k) ∧
        Cell.common meet (a.cellAt k) (b.cellAt k) = some c := by
  generalize ho : some r = o at h
  cases h with
  | looped positive cells met =>
      cases ho
      refine ⟨positive, fun k _ => ?_, fun k c hc => ⟨met k, (cells k).symm.trans hc⟩⟩
      obtain ⟨q, d, t, hq, hd, -⟩ := met k
      rw [cells k, hq, hd]
      exact ⟨_, rfl⟩
  | @ended s p positive cells met =>
      have hpresence : ∀ k c, (Segment.cellsBefore s p)[k]? = some c →
          (c.presence = .required ↔ k < max n m) := by
        intro k c hc
        have hk : k ≤ Segment.extent s := by
          have hlen := (List.getElem?_eq_some_iff.mp hc).1
          rw [Segment.cellsBefore, List.length_append, Segment.length_cells] at hlen
          cases p <;> simp at hlen <;> omega
        exact ha.common hb ((cells k hk).symm.trans hc)
      rw [endBefore_eq positive hpresence] at ho
      split_ifs at ho with hp
      cases ho
      have hcells : ∀ k < Segment.extent s,
          (Segment.cells s)[k]? = Cell.common meet (a.cellAt k) (b.cellAt k) := by
        intro k hk
        rw [← cells k hk.le, Segment.cellsBefore, List.getElem?_append_left (by simpa using hk)]
      simp only [cellAt_finite]
      refine ⟨⟨positive, Segment.positive_nil⟩, fun k hk => ?_, fun k c hc => ?_⟩
      · -- the segment does not end before a required argument
        have hlt : k < Segment.extent s := by
          by_contra hle
          have hstop := cells _ (Nat.le_refl (Segment.extent s))
          obtain ⟨c, hc⟩ : ∃ c, Cell.common meet _ _ = some c :=
            ha.exists_common hb (show Segment.extent s < max n m by omega)
          rw [getElem?_cellsBefore_extent, hc, Option.map_eq_some_iff] at hstop
          obtain ⟨q, rfl, rfl⟩ := hstop
          have := (ha.common hb hc).mpr (by omega)
          exact hp (congrArg some this)
        exact ⟨_, List.getElem?_eq_getElem (by simpa using hlt)⟩
      · have hk := (List.getElem?_eq_some_iff.mp hc).1
        rw [Segment.length_cells] at hk
        exact ⟨met k hk, (hcells k hk).symm.trans hc⟩

/-- What is required by one of the lists is required by the intersection, and nothing else. -/
theorem Requires.intersectWith {lists : ArgList → ArgList → Option ArgList} (ha : a.Requires n)
    (hb : b.Requires m) (h : ArgList.intersectWith lists a b = some r) :
    r.Requires (max n m) ∧ ∀ k c, r.cellAt k = some c → ∃ q d, a.cellAt k = some q ∧
      b.cellAt k = some d ∧ q.shape.meetWith lists d.shape = some c.shape := by
  obtain ⟨o, ho, houtcome⟩ := outcome_intersectWith ha.positive hb.positive lists
  rw [ho, Option.map_eq_some_iff] at h
  obtain ⟨l, rfl, rfl⟩ := h
  obtain ⟨positive, reaches, cells⟩ := ha.outcome hb houtcome
  have hcellAt := cellAt_normalizeOutermost positive
  refine ⟨⟨(normal_normalizeOutermost positive).positive, ?_, ?_⟩, ?_⟩
  · rw [hcellAt]
    exact reaches
  · rw [hcellAt]
    exact fun k c hc => ha.common hb (cells k c hc).2
  · rw [hcellAt]
    intro k c hc
    obtain ⟨⟨q, d, t, hq, hd, ht⟩, hcommon⟩ := cells k c hc
    rw [hq, hd] at hcommon
    cases hcommon
    exact ⟨q, d, hq, hd, by simp [ht]⟩

end ArgList

/-- The shapes that directives give their arguments, and the meets of those. -/
inductive Shape.Settled : Shape → Prop
  | plain {k : Kinds} (conversion : k ∈ Kinds.conversions) : Settled (.plain k)
  | compound {k : Kinds} {i r : List Run} {n : ℕ} (arity : k.arity = some n)
      (requires : ArgList.Requires n ⟨i, r⟩) (ends : ArgList.cellAt ⟨i, r⟩ n = none)
      (elements : ∀ m c, ArgList.cellAt ⟨i, r⟩ m = some c → c.shape.Settled) :
      Settled (.compound k i r)

namespace ArgList

/-- What element lists are intersected with along the nesting. -/
def intersectBelow : ℕ → ArgList → ArgList → Option ArgList
  | 0 => fun _ _ => none
  | d + 1 => intersectTo d

theorem intersectTo_eq (d : ℕ) : intersectTo d = intersectWith (intersectBelow d) := by
  cases d <;> rfl

end ArgList

namespace Shape.Settled
variable {s t u : Shape}

theorem meetWith_plain {lists : ArgList → ArgList → Option ArgList} {k : Kinds}
    (hk : k ∈ Kinds.conversions) (ht : t.Settled)
    (h : (Shape.plain k).meetWith lists t = some u) : u.Settled := by
  cases ht with
  | @plain l hl =>
      simp only [meetWith] at h
      split_ifs at h with h₁ h₂ h₃
      · cases h
        exact .plain hl
      · cases h
        exact .plain hk
      · cases h
        exact .plain (Kinds.inter_conversions k hk l hl (by simpa using h₃))
  | @compound l j q n arity requires ends elements =>
      simp only [meetWith] at h
      split_ifs at h with h₁ h₂
      · cases h
        exact .compound arity requires ends elements
      · cases h
        rw [Kinds.inter_of_arity hk arity (by simpa using h₂)]
        exact .compound arity requires ends elements

theorem meetBelow (hs : s.Settled) (ht : t.Settled) (d : ℕ)
    (h : s.meetWith (ArgList.intersectBelow d) t = some u) : u.Settled := by
  induction hs generalizing t d u with
  | plain hk => exact meetWith_plain hk ht h
  | @compound k i r n arity requires ends elements ih =>
      cases ht with
      | plain hl =>
          rw [compound_meetWith_plain] at h
          exact meetWith_plain hl (.compound arity requires ends elements) h
      | @compound l j q m arity' requires' ends' elements' =>
          simp only [meetWith] at h
          split_ifs at h with h₁
          obtain ⟨rfl, -⟩ := h₁
          obtain rfl : n = m := Option.some.inj (arity.symm.trans arity')
          rw [Option.map_eq_some_iff] at h
          obtain ⟨v, hv, rfl⟩ := h
          cases d with
          | zero => cases hv
          | succ d =>
              rw [ArgList.intersectBelow, ArgList.intersectTo_eq] at hv
              obtain ⟨hreq, hcells⟩ := requires.intersectWith requires' hv
              rw [Nat.max_self] at hreq
              refine .compound arity hreq ?_ fun p c hc => ?_
              · by_contra hne
                obtain ⟨c, hc⟩ := Option.ne_none_iff_exists'.mp hne
                obtain ⟨q, -, hq, -⟩ := hcells n c hc
                rw [ends] at hq
                cases hq
              · obtain ⟨q, e, hq, he, hmeet⟩ := hcells p c hc
                exact ih p q hq (elements' p e he) d hmeet

theorem meet (hs : s.Settled) (ht : t.Settled) (h : s.meet t = some u) : u.Settled :=
  hs.meetBelow ht (min s.depth t.depth + 1) h

theorem kinds_nonempty (hs : s.Settled) (hc : s.isCompound = false) : s.kinds.isEmpty = false := by
  cases hs with
  | @plain k conversion =>
      have hall : ∀ k ∈ Kinds.conversions, k.isEmpty = false := by decide
      exact hall k conversion
  | compound => cases hc

theorem elementwise (hs : s.Settled) : s.Elementwise := by
  intro hc
  cases hs with
  | plain => cases hc
  | compound arity =>
      rcases Kinds.arity_eq_some arity with ⟨rfl, -⟩ | ⟨rfl, -⟩
      · exact .inl rfl
      · exact .inr rfl

theorem everywhere {P : Run → Prop} (hP : ∀ r : Run, 0 < r.count → r.shape.Settled → P r)
    (hs : s.Settled) {l : ArgList} (hl : s.elements? = some l) : l.Everywhere P := by
  induction hs generalizing l with
  | plain => cases hl
  | @compound k i q n arity requires ends elements ih =>
      cases hl
      have hcell : ∀ r ∈ ArgList.runs ⟨i, q⟩, ∃ n, ArgList.cellAt ⟨i, q⟩ n = some r.cell :=
        fun r hr => ArgList.exists_cellAt_of_mem_runs requires.positive hr
      refine .intro (fun r hr => ?_) fun r hr m hm => ?_
      · obtain ⟨n, hn⟩ := hcell r hr
        exact hP r ((ArgList.positive_iff _).mp requires.positive r hr) (elements n _ hn)
      · obtain ⟨n, hn⟩ := hcell r hr
        exact ih n _ hn hm

end Shape.Settled

namespace ArgList
variable {l : ArgList}

/-- Every argument has a settled shape. -/
def Settled (l : ArgList) : Prop :=
  ∀ n c, l.cellAt n = some c → c.shape.Settled

theorem Settled.everywhere {P : Run → Prop} (hP : ∀ r : Run, 0 < r.count → r.shape.Settled → P r)
    (h : l.Settled) (hl : l.Positive) : l.Everywhere P := by
  have hshape : ∀ r ∈ l.runs, r.shape.Settled := by
    intro r hr
    obtain ⟨n, hn⟩ := exists_cellAt_of_mem_runs hl hr
    exact h n r.cell hn
  refine .intro (fun r hr => ?_) fun r hr m hm => ?_
  · exact hP r ((positive_iff _).mp hl r hr) (hshape r hr)
  · exact (hshape r hr).everywhere hP hm

theorem Settled.wellFormed (h : l.Settled) (hl : l.Positive) : l.WellFormed :=
  h.everywhere (fun _ hr hs => ⟨hr, hs.kinds_nonempty⟩) hl

theorem Settled.elementwise (h : l.Settled) (hl : l.Positive) : l.Elementwise :=
  h.everywhere (fun _ _ hs => hs.elementwise) hl

/-- Values for all places of a list whose shapes have values. -/
theorem exists_values (h : ∀ k c, l.cellAt k = some c → ∃ x : Value, x.Fits c.shape) :
    ∃ v : ℕ → Value, ∀ k c, l.cellAt k = some c → (v k).Fits c.shape := by
  have hv : ∀ k, ∃ x : Value, ∀ c, l.cellAt k = some c → x.Fits c.shape := by
    intro k
    cases hk : l.cellAt k with
    | none => exact ⟨.bool, nofun⟩
    | some c =>
        obtain ⟨x, hx⟩ := h k c hk
        exact ⟨x, fun d hd => by cases hd; exact hx⟩
  choose v hv using hv
  exact ⟨v, hv⟩

/-- Values that fit their places are accepted, if they are enough and the list is long enough. -/
theorem Requires.accepts_values {n k : ℕ} (h : l.Requires n) (hnk : n ≤ k)
    (hreach : ∀ j < k, ∃ c, l.cellAt j = some c) {v : ℕ → Value}
    (hv : ∀ j c, l.cellAt j = some c → (v j).Fits c.shape) :
    l.Accepts ((List.range k).map v) := by
  rw [h.accepts_iff, List.length_map, List.length_range]
  refine ⟨hnk, fun i x hx => ?_⟩
  simp only [List.getElem?_map, Option.map_eq_some_iff, List.getElem?_eq_some_iff,
    List.length_range, List.getElem_range] at hx
  obtain ⟨j, ⟨hj, rfl⟩, rfl⟩ := hx
  obtain ⟨c, hc⟩ := hreach i hj
  exact ⟨c, hc, hv i c hc⟩

end ArgList

namespace Shape.Settled
variable {s t : Shape}

theorem inhabited (hs : s.Settled) : ∃ x : Value, x.Fits s := by
  induction hs with
  | @plain k conversion =>
      have hall : ∀ k ∈ Kinds.conversions, ∃ c ∈ Category.all, c ∈ k := by decide
      obtain ⟨c, -, hc⟩ := hall k conversion
      obtain ⟨x, rfl⟩ := Value.exists_category c
      exact ⟨x, (x.fits_plain k).mpr hc⟩
  | @compound k i r n arity requires ends elements ih =>
      obtain ⟨v, hv⟩ := ArgList.exists_values ih
      have hacc := requires.accepts_values (Nat.le_refl n) requires.reaches hv
      obtain ⟨x, hx, hes⟩ := Value.exists_of_elements ((List.range n).map v) (by simpa using arity)
      exact ⟨x, (x.fits_compound k i r).mpr ⟨hx, _, hes, hacc⟩⟩

/-- Settled shapes meet in what fits both. -/
theorem fits_meet (hs : s.Settled) (ht : t.Settled) (x : Value) :
    x.Fits ((s.meet t).getD .nothing) ↔ x.Fits s ∧ x.Fits t := by
  apply x.fits_meetWith hs.elementwise ht.elementwise
  intro l m hl hm xs
  have hdl := Shape.depth_elements hl
  have hdm := Shape.depth_elements hm
  have hwf : ∀ r : Run, 0 < r.count → r.shape.Settled →
      0 < r.count ∧ (r.shape.isCompound = false → r.shape.kinds.isEmpty = false) :=
    fun _ hr hs => ⟨hr, hs.kinds_nonempty⟩
  have hel : ∀ r : Run, 0 < r.count → r.shape.Settled → r.shape.Elementwise :=
    fun _ _ hs => hs.elementwise
  exact ArgList.accepts_intersectTo _ (hs.everywhere hwf hl) (ht.everywhere hwf hm)
    (hs.everywhere hel hl) (ht.everywhere hel hm) (by omega) xs

theorem meet_eq_none (hs : s.Settled) (ht : t.Settled) :
    s.meet t = none ↔ ∀ x : Value, ¬ (x.Fits s ∧ x.Fits t) := by
  constructor
  · intro h x
    rw [← hs.fits_meet ht, h]
    exact x.not_fits_nothing
  · intro h
    by_contra hne
    obtain ⟨u, hu⟩ := Option.ne_none_iff_exists'.mp hne
    obtain ⟨x, hx⟩ := (hs.meet ht hu).inhabited
    apply h x
    rw [← hs.fits_meet ht, hu]
    exact hx

end Shape.Settled

namespace ArgList
variable {l : ArgList} {n : ℕ}

/-- Intersections of such lists are such lists. -/
theorem Requires.intersect {a b r : ArgList} {m : ℕ} (ha : a.Requires n) (hb : b.Requires m)
    (hs : a.Settled) (ht : b.Settled) (h : a.intersect b = some r) :
    r.Requires (max n m) ∧ r.Settled := by
  rw [ArgList.intersect, intersectTo_eq] at h
  obtain ⟨hrequires, hcells⟩ := ha.intersectWith hb h
  refine ⟨hrequires, fun k c hc => ?_⟩
  obtain ⟨q, d, hq, hd, hmeet⟩ := hcells k c hc
  exact (hs k q hq).meetBelow (ht k d hd) _ hmeet

/-- A value that fits its place is part of some arguments that are accepted. -/
theorem Requires.exists_accepts (h : l.Requires n) (hs : l.Settled) {k : ℕ} {x : Value}
    (hx : l.Admits k x) : ∃ xs, l.Accepts xs ∧ xs[k]? = some x := by
  obtain ⟨c, hc, hx⟩ := hx
  obtain ⟨v, hv⟩ := exists_values fun j c hc => (hs j c hc).inhabited
  have hreach : ∀ j < max n (k + 1), ∃ c, l.cellAt j = some c := by
    intro j hj
    rcases lt_max_iff.mp hj with hj | hj
    · exact h.reaches j hj
    · exact exists_cellAt_of_le hc (Nat.le_of_lt_succ hj)
  have hv' : ∀ j c, l.cellAt j = some c → (Function.update v k x j).Fits c.shape := by
    intro j d hd
    by_cases hj : j = k
    · subst hj
      rw [hc] at hd
      cases hd
      rwa [Function.update_self]
    · rw [Function.update_of_ne hj]
      exact hv j d hd
  refine ⟨_, h.accepts_values (Nat.le_max_left n (k + 1)) hreach hv', ?_⟩
  simp

/-- Some arguments are accepted, and none are too few. -/
theorem Requires.exists_accepts_length (h : l.Requires n) (hs : l.Settled) :
    ∃ xs, l.Accepts xs ∧ xs.length = n := by
  obtain ⟨v, hv⟩ := exists_values fun j c hc => (hs j c hc).inhabited
  exact ⟨_, h.accepts_values (Nat.le_refl n) h.reaches hv, by simp⟩

end ArgList

end CatalogLint
