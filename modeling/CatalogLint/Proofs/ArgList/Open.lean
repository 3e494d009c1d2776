import CatalogLint.Proofs.ArgList.Narrow
import CatalogLint.Proofs.ArgList.Settled

/-!
# Lists under construction

While a format string is read, its list requires some arguments and leaves open how many follow.
From the last required place on, the shapes only become wider: whatever constrains all later
arguments has been required once, at a place that is required now (`Open.rising`). Therefore a
contradiction always shows at a required place, where it leaves no list (`Open.requireShape`,
`Open.restrictFrom`), and never cuts the list short.
-/
namespace CatalogLint.ArgList

structure Open (n : ℕ) (l : ArgList) : Prop where
  requires : l.Requires n
  endless : ∀ k, ∃ c, l.cellAt k = some c
  settled : l.Settled
  rising : ∀ j k x, n ≤ j + 1 → j ≤ k → l.Admits j x → l.Admits k x

/-- What a list becomes when some places are given a shape: a list that admits there what has the
shape, or none because some required place admits nothing of the kind. -/
def Confined (n : ℕ) (l : ArgList) (p : ℕ → Prop) (t : Shape) : Option ArgList → Prop
  | some m => m.Open n ∧ ∀ j x, m.Admits j x ↔ l.Admits j x ∧ (p j → x.Fits t)
  | none => ∃ j < n, p j ∧ ∀ x, l.Admits j x → ¬ x.Fits t

variable {l m : ArgList} {n : ℕ} {t : Shape}

theorem Open.inhabited (h : l.Open n) (k : ℕ) : ∃ x, l.Admits k x := by
  obtain ⟨c, hc⟩ := h.endless k
  obtain ⟨x, hx⟩ := (h.settled k c hc).inhabited
  exact ⟨x, c, hc, hx⟩

theorem Open.reaches (h : l.Open n) (k : ℕ) : l.Reaches k := by
  obtain ⟨c, hc⟩ := h.endless k
  exact (reaches_of_cellAt hc).mono (Nat.le_succ k)

theorem Open.isFinite_eq (h : l.Open n) : l.isFinite = false := by
  by_contra hfin
  obtain ⟨c, hc⟩ := h.endless (Segment.extent l.initial)
  have := reaches_of_cellAt hc (by simpa using hfin)
  omega

theorem cellAt_unconstrained (k : ℕ) : unconstrained.cellAt k = some ⟨.optional, .any⟩ := by
  simp [cellAt, unconstrained, argAt, isFinite, Segment.extent, Segment.at?, Run.cell, Nat.mod_one]

theorem open_unconstrained : unconstrained.Open 0 := by
  have hpos : unconstrained.Positive := by
    simp [Positive, unconstrained, Segment.Positive]
  refine ⟨⟨hpos, fun k hk => ?_, fun k c hc => ?_⟩, fun k => ⟨_, cellAt_unconstrained k⟩,
    fun k c hc => ?_, fun j k x _ _ _ => ⟨_, cellAt_unconstrained k, x.fits_any⟩⟩
  · exact absurd hk (Nat.not_lt_zero k)
  · rw [cellAt_unconstrained] at hc
    cases hc
    simp
  · rw [cellAt_unconstrained] at hc
    cases hc
    exact .plain (by decide)

/-- To confine a list to the same shape at further places. -/
theorem Confined.trans {p q : ℕ → Prop} {o : Option ArgList} (hp : Confined n l p t (some m))
    (hq : Confined n m q t o) : Confined n l (fun k => p k ∨ q k) t o := by
  obtain ⟨-, hadmits⟩ := hp
  cases o with
  | some a =>
      refine ⟨hq.1, fun j x => ?_⟩
      rw [hq.2, hadmits]
      tauto
  | none =>
      obtain ⟨j, hj, hqj, hnone⟩ := hq
      refine ⟨j, hj, .inr hqj, fun x hx ht => ?_⟩
      exact hnone x ((hadmits j x).mpr ⟨hx, fun _ => ht⟩) ht

/-- A list whose cells are those of an open list, changed one by one. -/
theorem Open.of_cells (h : l.Open n) {n' : ℕ} (positive : m.Positive)
    (cells : ∀ j c, l.cellAt j = some c → ∃ d, m.cellAt j = some d ∧
      (d.presence = .required ↔ j < n') ∧ d.shape.Settled)
    (rising : ∀ j k x, n' ≤ j + 1 → j ≤ k → m.Admits j x → m.Admits k x) : m.Open n' := by
  have hcell : ∀ j, ∃ d, m.cellAt j = some d ∧ (d.presence = .required ↔ j < n') ∧
      d.shape.Settled := by
    intro j
    obtain ⟨c, hc⟩ := h.endless j
    exact cells j c hc
  have hendless : ∀ j, ∃ d, m.cellAt j = some d := by
    intro j
    obtain ⟨d, hd, -⟩ := hcell j
    exact ⟨d, hd⟩
  refine ⟨⟨positive, fun j _ => hendless j, fun j c hc => ?_⟩, hendless, fun j c hc => ?_, rising⟩
  · obtain ⟨d, hd, hp, -⟩ := hcell j
    cases hc.symm.trans hd
    exact hp
  · obtain ⟨d, hd, -, hs⟩ := hcell j
    cases hc.symm.trans hd
    exact hs

/-- To require arguments constrains no value. -/
theorem Open.require (h : l.Open n) (k : ℕ) :
    ∃ m, l.require k = some m ∧ m.Open (max n (k + 1)) ∧ ∀ j x, m.Admits j x ↔ l.Admits j x := by
  obtain ⟨m, hm, positive, hcells⟩ := require_eq h.requires.positive (h.reaches (k + 1))
  have hcell : ∀ j c, l.cellAt j = some c → ∃ d, m.cellAt j = some d ∧
      (d.presence = .required ↔ j < max n (k + 1)) ∧ d.shape = c.shape := by
    intro j c hc
    have hj := h.requires.presence j c hc
    rw [hcells j, hc]
    refine ⟨_, rfl, ?_, ?_⟩
    · split_ifs with hle
      · simp only [Cell.require, true_iff]
        omega
      · rw [id, hj]
        omega
    · split_ifs <;> rfl
  have hadmits : ∀ j x, m.Admits j x ↔ l.Admits j x := by
    intro j x
    obtain ⟨c, hc⟩ := h.endless j
    obtain ⟨d, hd, -, hs⟩ := hcell j c hc
    rw [admits_of_cellAt hc, admits_of_cellAt hd, hs]
  refine ⟨m, hm, h.of_cells positive (fun j c hc => ?_) fun i j x hi hij => ?_, hadmits⟩
  · obtain ⟨d, hd, hp, hs⟩ := hcell j c hc
    exact ⟨d, hd, hp, hs ▸ h.settled j c hc⟩
  · rw [hadmits, hadmits]
    exact h.rising i j x (by omega) hij

/-- Where the arguments can have the shape, they get it. -/
theorem Open.narrowed {p : ℕ → Prop} [DecidablePred p] (h : l.Open n) (ht : t.Settled)
    (hm : Narrowed t p l m)
    (hp : ∀ j k x, n ≤ j + 1 → j ≤ k → l.Admits j x → (p j → x.Fits t) → p k → x.Fits t) :
    Confined n l p t (some m) := by
  have hcell : ∀ j c, l.cellAt j = some c → ∃ d, m.cellAt j = some d ∧
      d.presence = c.presence ∧ d.shape.Settled ∧
      ∀ x : Value, x.Fits d.shape ↔ x.Fits c.shape ∧ (p j → x.Fits t) := by
    intro j c hc
    have hs := h.settled j c hc
    rw [hm.cells j, hc]
    refine ⟨_, rfl, ?_⟩
    split_ifs with hj
    · obtain ⟨u, hu⟩ := Option.ne_none_iff_exists'.mp (hm.met j c hj hc)
      refine ⟨rfl, ?_, fun x => ?_⟩
      · simp only [Cell.narrow, hu, Option.getD_some]
        exact hs.meet ht hu
      · rw [forall_prop_of_true hj]
        exact hs.fits_meet ht x
    · exact ⟨rfl, hs, fun x => by simp [hj]⟩
  have hadmits : ∀ j x, m.Admits j x ↔ l.Admits j x ∧ (p j → x.Fits t) := by
    intro j x
    obtain ⟨c, hc⟩ := h.endless j
    obtain ⟨d, hd, -, -, hfits⟩ := hcell j c hc
    rw [admits_of_cellAt hc, admits_of_cellAt hd, hfits]
  refine ⟨h.of_cells hm.positive (fun j c hc => ?_) fun i j x hi hij hx => ?_, hadmits⟩
  · obtain ⟨d, hd, hp, hs, -⟩ := hcell j c hc
    exact ⟨d, hd, hp ▸ h.requires.presence j c hc, hs⟩
  · obtain ⟨hx, ht⟩ := (hadmits i x).mp hx
    exact (hadmits j x).mpr ⟨h.rising i j x hi hij hx, hp i j x hi hij hx ht⟩

/-- A contradiction at a required place leaves no list. -/
theorem Open.stopped (h : l.Open n) {first stop : ℕ} (hm : Stopped t first stop l m)
    (hstop : stop < n) : m.endAt stop = none := by
  have hcell : ∀ k ≤ stop, ∃ d, m.cellAt k = some d ∧ d.presence = .required := by
    intro k hk
    obtain ⟨c, hc⟩ := h.endless k
    rw [hm.cells k hk, hc]
    refine ⟨_, rfl, ?_⟩
    have hreq := (h.requires.presence k c hc).mpr (by omega)
    split_ifs <;> exact hreq
  obtain ⟨d, hd, hreq⟩ := hcell stop (Nat.le_refl stop)
  obtain ⟨s, hend, hs, hext, hcells⟩ := endAt_eq hm.positive hd
  rw [hend, hreq]
  apply backtrack_of_required hs
  intro c hc
  obtain ⟨k, hk, hget⟩ := List.mem_iff_getElem.mp hc
  rw [Segment.length_cells] at hk
  obtain ⟨e, he, hreq⟩ := hcell k (by omega)
  rw [← hcells k (by omega), List.getElem?_eq_getElem (by simpa using hk), hget] at he
  cases he
  exact hreq

theorem Open.not_admits (h : l.Open n) (ht : t.Settled) {first stop : ℕ}
    (hm : Stopped t first stop l m) (x : Value) : l.Admits stop x → ¬ x.Fits t := by
  obtain ⟨c, hc, hnone⟩ := hm.contradiction
  rw [admits_of_cellAt hc]
  exact fun hx hxt => ((h.settled stop c hc).meet_eq_none ht).mp hnone x ⟨hx, hxt⟩

theorem Open.restrict (h : l.Open n) (ht : t.Settled) {first last : ℕ} (hle : first ≤ last)
    (hlast : last < n) :
    Confined n l (fun k => first ≤ k ∧ k ≤ last) t (l.restrict first last t) := by
  rcases restrict_cases h.requires.positive hle (h.reaches (last + 1)) t with
    ⟨m, hm, hn⟩ | ⟨m, stop, hm, hstop, hs⟩
  · rw [hm]
    apply h.narrowed ht hn
    intro j k x hj hjk _ hx hk
    -- only the last required place can be in both ranges
    obtain rfl : k = j := by omega
    exact hx hk
  · rw [hm, h.stopped hs (by omega)]
    exact ⟨stop, by omega, ⟨hs.le, hstop⟩, h.not_admits ht hs⟩

/-- The places from `first` on get a shape that the place before them has already. -/
theorem Open.restrictFrom (h : l.Open n) (ht : t.Settled) {first : ℕ} (hfirst : first < n)
    (hbefore : ∀ x, l.Admits first x → x.Fits t) :
    Confined n l (fun k => first + 1 ≤ k) t (l.restrictFrom (first + 1) t) := by
  rcases restrictFrom_cases h.requires.positive (h.reaches (first + 1)) t with
    ⟨m, hm, hn⟩ | ⟨m, stop, hm, hs⟩
  · rw [hm]
    apply h.narrowed ht hn
    intro j k x hj hjk hx hxj hk
    rcases Nat.lt_or_ge j (first + 1) with hlt | hge
    · obtain rfl : j = first := by omega
      exact hbefore x hx
    · exact hxj hge
  · have hstop : stop < n := by
      by_contra hge
      -- the last required place has the shape, and all later ones are wider
      obtain ⟨x, hx, hxt⟩ : ∃ x, l.Admits (n - 1) x ∧ x.Fits t := by
        rcases Nat.lt_or_ge first (n - 1) with hlt | hle
        · obtain ⟨c, hc⟩ := h.endless (n - 1)
          have hsettled := h.settled _ c hc
          have hne := hs.met (n - 1) c (by omega) (by omega) hc
          rw [Ne, hsettled.meet_eq_none ht] at hne
          push Not at hne
          obtain ⟨x, hx, hxt⟩ := hne
          exact ⟨x, ⟨c, hc, hx⟩, hxt⟩
        · obtain ⟨x, hx⟩ := h.inhabited (n - 1)
          obtain rfl : first = n - 1 := by omega
          exact ⟨x, hx, hbefore x hx⟩
      exact h.not_admits ht hs x (h.rising (n - 1) stop x (by omega) (by omega) hx) hxt
    rw [hm, h.stopped hs hstop]
    exact ⟨stop, hstop, hs.le, h.not_admits ht hs⟩

/-- To end the list after the required arguments. -/
theorem Open.endAt (h : l.Open n) : ∃ s, l.endAt n = some (finite s) ∧ Segment.Positive s ∧
    Segment.extent s = n ∧ ∀ k < n, (Segment.cells s)[k]? = l.cellAt k := by
  obtain ⟨c, hc⟩ := h.endless n
  obtain ⟨s, hend, hs⟩ := endAt_eq h.requires.positive hc
  have hopt : c.presence = .optional := by
    have := (h.requires.presence n c hc).not.mpr (Nat.lt_irrefl n)
    cases hp : c.presence with
    | required => exact absurd hp this
    | optional => rfl
  rw [hopt] at hend
  exact ⟨s, hend, hs⟩

/-- To require arguments up to `last` and give those from `first` on a shape. -/
theorem Open.requireShape (h : l.Open n) (ht : t.Settled) {first last : ℕ} (hle : first ≤ last) :
    Confined (max n (last + 1)) l (fun k => first ≤ k ∧ k ≤ last) t
      (l.requireShape first last t) := by
  obtain ⟨m, hm, hopen, hadmits⟩ := h.require last
  have hconfined := hopen.restrict ht hle (by omega)
  rw [ArgList.requireShape, hm]
  simp only [Confined, hadmits] at hconfined
  exact hconfined

end CatalogLint.ArgList
