import CatalogLint.Proofs.Format.Reading

/-!
# The form of the lists of format strings

The list of an accepted string requires the arguments of its initial segment, and its loop, if it
has one, is a single optional argument (`FormatString.parse_tidy`). All later arguments are alike
because only the references without a last argument reach them, and each of these reaches all of
them (`ArgList.Built.admits_beyond`). Element lists have one argument or two, all required.
-/
namespace CatalogLint
open Sequence Use

/-- The shape is plain, or it describes the elements of sequences by one required argument, or
those of tables by two; the list of these is in normal form, and their shapes are tidy in turn. -/
inductive Shape.Tidy : Shape → Prop
  | plain (k : Kinds) : Tidy (.plain k)
  | compound {k : Kinds} {i : List Run}
      (arity : k = .sequences ∧ Segment.extent i = 1 ∨ k = .tables ∧ Segment.extent i = 2)
      (required : ∀ r ∈ i, r.presence = .required)
      (normal : (ArgList.finite i).normalize = .finite i)
      (elements : ∀ r ∈ i, r.shape.Tidy) : Tidy (.compound k i [])

namespace ArgList

/-- A list in normal form that requires its initial segment and repeats at most one argument,
which is optional. -/
structure Tidy (l : ArgList) : Prop where
  wellFormed : l.WellFormed
  normal : l.normalize = l
  required : ∀ r ∈ l.initial, r.presence = .required
  loop : l.repeated = [] ∨ ∃ t, l.repeated = [⟨1, .optional, t⟩]
  shapes : ∀ r ∈ l.runs, r.shape.Tidy

variable {l : ArgList} {n : ℕ}

/-! ### Lists that end after the required arguments -/

theorem Requires.extent_of_ends (hr : l.Requires n) (h : l.cellAt n = none) :
    Segment.extent l.initial = n := by
  obtain ⟨hfin, hle⟩ := (cellAt_eq_none_iff hr.positive).mp h
  apply Nat.le_antisymm hle
  by_contra hlt
  obtain ⟨c, hc⟩ := hr.reaches (Segment.extent l.initial) (by omega)
  rw [(cellAt_eq_none_iff hr.positive).mpr ⟨hfin, Nat.le_refl _⟩] at hc
  cases hc

theorem Requires.required_of_ends (hr : l.Requires n) (h : l.cellAt n = none) {r : Run}
    (hmem : r ∈ l.initial) : r.presence = .required := by
  obtain ⟨k, hk⟩ := exists_cellAt_of_mem_runs hr.positive (List.mem_append_left _ hmem)
  exact (hr.presence k r.cell hk).mpr (lt_of_ends h hk)

end ArgList

theorem Shape.Settled.tidy {s : Shape} (hs : s.Settled) (hn : s.normalize = s) : s.Tidy := by
  induction hs with
  | plain => exact .plain _
  | @compound k i q n arity requires ends elements ih =>
      obtain rfl : q = [] := ArgList.repeated_of_ends requires.positive ends
      have hnormal : (ArgList.finite i).normalize = .finite i := by
        have h := congrArg Shape.elements? hn
        rw [Shape.elements?_normalize] at h
        exact Option.some.inj h
      have hextent : Segment.extent i = n := requires.extent_of_ends ends
      have harity : k = .sequences ∧ Segment.extent i = 1 ∨
          k = .tables ∧ Segment.extent i = 2 := by
        rw [hextent]
        exact Kinds.arity_eq_some arity
      refine .compound harity (fun r hr => requires.required_of_ends ends hr) hnormal fun r hr => ?_
      have hmem : r ∈ ArgList.runs (.finite i) := List.mem_append_left _ hr
      obtain ⟨p, hp⟩ := ArgList.exists_cellAt_of_mem_runs requires.positive hmem
      exact ih p r.cell hp (ArgList.shape_normalize_eq requires.positive hnormal hmem)

namespace Use
variable {us : List Use} {u : Use} {k : ℕ}

/-- Past the largest number, only the references to all later arguments are left. -/
theorem covers_beyond (hu : u ∈ us) (hk : reach us ≤ k) :
    u.Covers (k + 1) ↔ u.isBounded = false := by
  have hlargest := (largest_le_reach hu).trans hk
  unfold Covers isBounded
  unfold largest at hlargest
  cases hlast : u.last with
  | none =>
      rw [hlast, Option.getD_none] at hlargest
      simp only [Option.not_mem_none, false_imp_iff, implies_true, and_true, Option.isSome_none,
        iff_true]
      omega
  | some m =>
      rw [hlast, Option.getD_some] at hlargest
      simp only [Option.mem_some_iff, forall_eq', Option.isSome_some, reduceCtorEq, iff_false]
      omega

end Use

namespace ArgList

variable {l : ArgList} {us : List Use} {j k : ℕ}

/-- Arguments that no reference tells apart are alike. -/
theorem Built.admits_beyond (h : l.Built us) (hopen : us.all isBounded = false)
    (hj : reach us ≤ j) (hk : reach us ≤ k) {x : Value} (hx : l.Admits j x) : l.Admits k x := by
  obtain ⟨xs, hxs, hget⟩ := h.requires.exists_accepts h.settled hx
  have hsatisfied := (h.accepts xs).mp hxs
  rw [Satisfied, hopen, if_neg Bool.false_ne_true] at hsatisfied
  have hlen := hsatisfied.1
  -- the required arguments, and then this value throughout
  set ys := xs.take (reach us) ++ List.replicate (k + 1 - reach us) x with hys
  have hbefore : ∀ i < reach us, ys[i]? = xs[i]? := by
    intro i hi
    rw [hys, List.getElem?_append_left (by simp; omega), List.getElem?_take_of_lt hi]
  have hafter : ∀ i, reach us ≤ i → ∀ y, ys[i]? = some y → y = x := by
    intro i hi y hy
    rw [hys, List.getElem?_append_right (by simp; omega)] at hy
    exact List.eq_of_mem_replicate (List.mem_of_getElem? hy)
  have haccepts : l.Accepts ys := by
    rw [h.accepts, Satisfied, hopen, if_neg Bool.false_ne_true]
    constructor
    · simp [hys]
      omega
    · intro u hu i y hy hcovers
      rcases Nat.lt_or_ge i (reach us) with hi | hi
      · exact hsatisfied.2 u hu i y (hbefore i hi ▸ hy) hcovers
      · rw [hafter i hi y hy]
        rw [covers_beyond hu hi, ← covers_beyond hu hj] at hcovers
        exact hsatisfied.2 u hu j x hget hcovers
  have hyk : ys[k]? = some x := by
    rw [hys, List.getElem?_append_right (by simp; omega), List.getElem?_replicate]
    simp
    omega
  exact ((h.requires.accepts_iff ys).mp haccepts).2 k x hyk

/-- All arguments that are not required are the same. -/
theorem Built.exists_loop (h : l.Built us) (hopen : us.all isBounded = false) :
    ∃ t, ∀ k, reach us ≤ k → l.normalize.cellAt k = some ⟨.optional, t⟩ := by
  have hloop : l.repeated ≠ [] := by
    intro hnil
    have hfin := isFinite_iff.mpr hnil
    rw [h.isFinite, hopen] at hfin
    cases hfin
  have hcell := exists_cellAt_of_loop hloop h.requires.positive
  obtain ⟨c, hc⟩ := hcell (reach us)
  refine ⟨c.shape.normalize, fun k hk => ?_⟩
  obtain ⟨d, hd⟩ := hcell k
  have hoptional : d.presence = .optional := by
    have hnot := (h.requires.presence k d hd).not.mpr (by omega)
    cases hp : d.presence with
    | required => exact absurd hp hnot
    | optional => rfl
  have hshape : d.shape.normalize = c.shape.normalize := by
    apply (h.settled k d hd).normalize_eq (h.settled _ c hc)
    intro x
    rw [← admits_of_cellAt hd, ← admits_of_cellAt hc]
    exact ⟨h.admits_beyond hopen hk (Nat.le_refl _), h.admits_beyond hopen (Nat.le_refl _) hk⟩
  rw [cellAt_normalize h.requires.positive, hd, Option.map_some, Cell.normalize, hoptional, hshape]

/-- A list in normal form whose later arguments are all the same repeats one run. -/
theorem Normal.eq_of_loop {n : ℕ} (hn : l.Normal) (hr : l.Requires n) {t : Shape}
    (h : ∀ k, n ≤ k → l.cellAt k = some ⟨.optional, t⟩) :
    ∃ s, l = ⟨s, [⟨1, .optional, t⟩]⟩ ∧ ∀ r ∈ s, r.presence = .required := by
  have hpos := hr.positive
  have hreaches : l.Reaches n := (reaches_of_cellAt (h n (Nat.le_refl n))).mono (Nat.le_succ n)
  set u := (Segment.cells (l.stretch n).initial).take n with hu
  have hlen : u.length = n := by
    simpa [hu] using le_extent_stretch hpos hreaches
  have hget : ∀ k < n, u[k]? = l.cellAt k := by
    intro k hk
    have hext := le_extent_stretch hpos hreaches
    rw [hu, List.getElem?_take_of_lt hk, ← cellAt_stretch hpos n, cellAt_of_lt (by omega)]
  have hrequired : ∀ c ∈ u, c.presence = .required := by
    intro c hc
    obtain ⟨k, hk, hget'⟩ := List.mem_iff_getElem.mp hc
    have hcell := hget k (by omega)
    rw [List.getElem?_eq_getElem hk, hget'] at hcell
    exact (hr.presence k c hcell.symm).mpr (by omega)
  refine ⟨Segment.ofCells u, hn.ext ?_ ?_, fun r hr => ?_⟩
  · refine ⟨⟨⟨Segment.positive_ofCells u, by simp [Segment.Positive]⟩, Segment.coalesced_ofCells u,
      .singleton _, shortest_singleton _⟩, fun c hc hloop => ?_⟩
    -- the initial segment ends in a required argument
    rw [Segment.cells_ofCells] at hc
    have hreq := hrequired c (List.mem_of_getLast? hc)
    cases hloop
    cases hreq
  · funext k
    have hlasso : cellAt ⟨Segment.ofCells u, [⟨1, .optional, t⟩]⟩ k =
        lasso u [⟨.optional, t⟩] k := by
      rw [cellAt_eq_lasso, Segment.cells_ofCells]
      rfl
    rw [hlasso, lasso_singleton, hlen]
    split_ifs with hk
    · exact (hget k hk).symm
    · exact h k (by omega)
  · have hmem : r.cell ∈ Segment.cells (Segment.ofCells u) :=
      Segment.cell_mem_cells hr (Segment.positive_ofCells u r hr)
    rw [Segment.cells_ofCells] at hmem
    exact hrequired r.cell hmem

theorem Built.tidy (h : l.Built us) : l.normalize.Tidy := by
  have hreduced := h.requires.reduced h.settled
  have hpos := hreduced.requires.positive
  have hshapes : ∀ r ∈ l.normalize.runs, r.shape.Tidy := by
    intro r hr
    obtain ⟨k, hk⟩ := exists_cellAt_of_mem_runs hpos hr
    exact (hreduced.settled k r.cell hk).tidy (shape_normalize_eq hpos hreduced.normal hr)
  cases hall : us.all isBounded with
  | true =>
      have hends : l.normalize.cellAt (reach us) = none := by
        have hfin := h.isFinite.trans hall
        rw [cellAt_normalize h.requires.positive,
          (cellAt_eq_none_iff h.requires.positive).mpr ⟨hfin, (h.extent hfin).le⟩]
        rfl
      exact ⟨hreduced.wellFormed, hreduced.normal,
        fun r hr => hreduced.requires.required_of_ends hends hr,
        .inl (repeated_of_ends hpos hends), hshapes⟩
  | false =>
      obtain ⟨t, ht⟩ := h.exists_loop hall
      obtain ⟨s, hs, hrequired⟩ :=
        (normal_normalize h.requires.positive).eq_of_loop hreduced.requires ht
      refine ⟨hreduced.wellFormed, hreduced.normal, ?_, .inr ⟨t, ?_⟩, hshapes⟩
      · rwa [hs]
      · rw [hs]

end ArgList

namespace FormatString

/-- The list of an accepted string is in normal form, with all arguments required but for a loop
of one optional argument, and element lists of one or two required arguments at every level of
nesting; and it accepts some arguments. -/
theorem parse_tidy {s : String} {f : FormatSpec} (h : (parse s).result = .ok f) :
    f.arguments.Tidy ∧ ∃ xs, f.arguments.Accepts xs := by
  obtain ⟨us, l, hl, harguments⟩ := exists_built h
  have hreduced := hl.requires.reduced hl.settled
  obtain ⟨xs, hxs, -⟩ := hreduced.requires.exists_accepts_length hreduced.settled
  rw [harguments]
  exact ⟨hl.tidy, xs, hxs⟩

/-- Elements that are formatted on their own, and numbers from the second argument on. -/
theorem parse_tidy_loop :
    let numbers : Shape := .plain (.ofList [.bool, .integer, .char])
    let strings : Shape :=
      .compound .sequences [⟨1, .required, .plain (.ofList [.char])⟩] []
    let f : FormatSpec := ⟨3, 3, ⟨[⟨1, .required, strings⟩, ⟨2, .required, numbers⟩],
      [⟨1, .optional, numbers⟩]⟩⟩
    (parse "%(%c%) %2:$d %3$x").result = .ok f ∧
      f.arguments.Tidy ∧ ∃ xs, f.arguments.Accepts xs := by
  intro numbers strings f
  have hparse : (parse "%(%c%) %2:$d %3$x").result = .ok f := by decide +kernel
  exact ⟨hparse, parse_tidy hparse⟩

end FormatString

end CatalogLint
