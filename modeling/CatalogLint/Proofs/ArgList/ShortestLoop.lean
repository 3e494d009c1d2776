import CatalogLint.ArgList.Normal
import CatalogLint.Proofs.ArgList.View

/-!
# The shortest loop

A merged loop is read as a circle, in which a run that wraps around is one run. The circle
repeats itself as a sequence of arguments exactly when its runs do, so the least number of runs
that it repeats is the shortest loop. Main statement: `shortened_shortestLoop`.
-/
namespace CatalogLint
open Sequence

namespace Segment

/-- A loop read as a circle has merged runs: also its last and its first run differ. -/
structure Circular (s : Segment) : Prop where
  coalesced : Coalesced s
  ends : ∀ a ∈ s.getLast?, ∀ b ∈ s.head?, a.cell ≠ b.cell

theorem Circular.power {s : Segment} (h : Circular s) (k : ℕ) :
    Coalesced (List.replicate k s).flatten := by
  induction k with
  | zero => exact .nil
  | succ k ih =>
      rw [List.replicate_succ, List.flatten_cons]
      refine List.isChain_append.mpr ⟨h.coalesced, ih, fun x hx y hy => h.ends x hx y ?_⟩
      cases k with
      | zero => simp at hy
      | succ k => rwa [head?_power s k.succ_pos] at hy

/-- A loop of cells that repeats itself has runs that repeat themselves. -/
theorem Circular.eq_power {s : Segment} (h : Circular s) (hs : Positive s) {w : List Cell}
    {k : ℕ} (hk : 0 < k) (hw : cells s = (List.replicate k w).flatten) :
    Circular (ofCells w) ∧ s = (List.replicate k (ofCells w)).flatten := by
  have hc : Circular (ofCells w) := by
    refine ⟨coalesced_ofCells w, fun a ha b hb => ?_⟩
    have hlast : (cells s).getLast? = (cells (ofCells w)).getLast? := by
      rw [hw, getLast?_power w hk, cells_ofCells]
    have hhead : (cells s).head? = (cells (ofCells w)).head? := by
      rw [hw, head?_power w hk, cells_ofCells]
    rw [getLast?_cells hs, getLast?_cells (positive_ofCells w), ha] at hlast
    rw [head?_cells hs, head?_cells (positive_ofCells w), hb] at hhead
    obtain ⟨a', ha', hac⟩ := Option.map_eq_some_iff.mp hlast
    obtain ⟨b', hb', hbc⟩ := Option.map_eq_some_iff.mp hhead
    rw [← hac, ← hbc]
    exact h.ends a' ha' b' hb'
  refine ⟨hc, cells_injective hs ((positive_ofCells w).power k) h.coalesced (hc.power k) ?_⟩
  rw [cells_power, cells_ofCells, hw]

theorem Circular.two_le_length {s : Segment} (h : Circular s) (hne : s ≠ []) : 2 ≤ s.length := by
  match s with
  | [] => exact absurd rfl hne
  | [r] => exact absurd rfl (h.ends r rfl r rfl)
  | _ :: _ :: s => simp

end Segment

namespace ArgList
open Segment

theorem eq_power_of_isPeriodic {s : Segment} {m k : ℕ} (h : isPeriodic s m = true)
    (hk : s.length = k * m) : s = (List.replicate k (s.take m)).flatten := by
  induction k generalizing s with
  | zero => simpa using hk
  | succ k ih =>
      rw [isPeriodic, decide_eq_true_iff] at h
      rw [Nat.succ_mul] at hk
      have hlen : (s.drop m).length = k * m := by simp; omega
      rw [List.replicate_succ, List.flatten_cons]
      cases k with
      | zero =>
          have : s.drop m = [] := List.length_eq_zero_iff.mp (by simpa using hlen)
          simpa [this] using (List.take_append_drop m s).symm
      | succ k =>
          have htake : (s.drop m).take m = s.take m := by
            rw [← h, List.take_take, Nat.min_eq_left]
            rw [Nat.succ_mul] at hk
            omega
          have hper : isPeriodic (s.drop m) m = true := by
            rw [isPeriodic, decide_eq_true_iff, List.length_drop]
            conv_rhs => rw [← h, List.drop_take]
          have := ih hper hlen
          rw [htake] at this
          rw [← this, List.take_append_drop]

theorem isPeriodic_power (s : Segment) (k : ℕ) :
    isPeriodic (List.replicate (k + 1) s).flatten s.length = true := by
  rw [isPeriodic, decide_eq_true_iff]
  have hlen : (List.replicate (k + 1) s).flatten.length - s.length =
      (List.replicate k s).flatten.length := by
    rw [length_power, length_power, Nat.succ_mul]
    omega
  rw [hlen]
  conv_lhs => rw [List.replicate_succ', List.flatten_concat, List.take_left]
  rw [List.replicate_succ, List.flatten_cons, List.drop_left]

/-- Everything that `period?` looks for. -/
abbrev IsPeriod (s : Segment) (m : ℕ) : Prop :=
  2 ≤ m ∧ s.length % m = 0 ∧ isPeriodic s m = true

theorem period?_eq_some {s : Segment} {m : ℕ} (h : period? s = some m) :
    IsPeriod s m ∧ ∀ j < m, ¬IsPeriod s j := by
  rw [period?, List.find?_range_eq_some] at h
  obtain ⟨hm, -, hmin⟩ := h
  refine ⟨decide_eq_true_iff.mp hm, fun j hj => ?_⟩
  simpa only [Bool.not_eq_true', decide_eq_false_iff_not] using hmin j hj

theorem period?_eq_none {s : Segment} (h : period? s = none) {m : ℕ} (hm : m ≤ s.length / 2) :
    ¬IsPeriod s m := by
  have := List.find?_eq_none.mp h m (by rw [List.mem_range]; omega)
  simpa only [decide_eq_true_eq] using this

/-- The runs of the shortest loop of a circle. -/
def turnLength (s : Segment) : ℕ :=
  (period? s).getD s.length

theorem eq_power_turnLength {s : Segment} (hs : s ≠ []) :
    ∃ k, 0 < k ∧ s = (List.replicate k (s.take (turnLength s))).flatten := by
  rw [turnLength]
  cases h : period? s with
  | none => exact ⟨1, Nat.one_pos, by simp⟩
  | some m =>
      obtain ⟨⟨hm, hmod, hper⟩, -⟩ := period?_eq_some h
      have hk : s.length = s.length / m * m :=
        (Nat.div_mul_cancel (Nat.dvd_of_mod_eq_zero hmod)).symm
      refine ⟨s.length / m, ?_, eq_power_of_isPeriodic hper hk⟩
      apply Nat.pos_of_ne_zero
      intro h0
      rw [h0, Nat.zero_mul] at hk
      exact hs (List.length_eq_zero_iff.mp hk)

theorem turnLength_le {s d : Segment} {k : ℕ} (hd : 2 ≤ d.length) (hk : 0 < k)
    (h : s = (List.replicate k d).flatten) : turnLength s ≤ d.length := by
  obtain ⟨k, rfl⟩ := Nat.exists_eq_add_of_lt hk
  have hlen : s.length = (k + 1) * d.length := by rw [h, length_power, Nat.zero_add]
  have hper : IsPeriod s d.length := by
    refine ⟨hd, by rw [hlen, Nat.mul_mod_left], ?_⟩
    rw [h, Nat.zero_add]
    exact isPeriodic_power d k
  rw [turnLength]
  cases hp : period? s with
  | none =>
      have : ¬d.length ≤ s.length / 2 := fun hle => period?_eq_none hp hle hper
      rw [Option.getD_none, hlen]
      rw [hlen] at this
      cases k with
      | zero => simp
      | succ k =>
          exfalso
          apply this
          rw [Nat.le_div_iff_mul_le Nat.two_pos, Nat.mul_comm]
          exact Nat.mul_le_mul_right _ (by omega)
  | some m =>
      by_contra hlt
      exact (period?_eq_some hp).2 d.length (Nat.lt_of_not_le hlt) hper

section Circles
variable {s : Segment}

theorem circular_take (h : Circular s) (hne : s ≠ []) : Circular (s.take (turnLength s)) := by
  obtain ⟨k, hk, he⟩ := eq_power_turnLength hne
  refine ⟨h.coalesced.take _, fun a ha b hb => h.ends a ?_ b ?_⟩
  · rwa [he, getLast?_power _ hk]
  · rwa [he, head?_power _ hk]

theorem shortest_take (h : Circular s) (hs : Segment.Positive s) (hne : s ≠ []) :
    Shortest (cells (s.take (turnLength s))) := by
  obtain ⟨k, hk, he⟩ := eq_power_turnLength hne
  have hc := circular_take h hne
  have hp : Segment.Positive (s.take (turnLength s)) := fun r hr => hs r (List.mem_of_mem_take hr)
  refine shortest_of_ne_power fun w j hj hw => ?_
  obtain ⟨hd, hpow⟩ := hc.eq_power hp (by omega) hw
  by_contra hcells
  have hd₂ : 2 ≤ (ofCells w).length := by
    apply hd.two_le_length
    intro hnil
    rw [hpow, hnil] at hcells
    simp at hcells
  have hle : turnLength s ≤ (ofCells w).length := by
    apply turnLength_le hd₂ (k := k * j) (Nat.mul_pos hk (by omega))
    rw [← power_power, ← hpow]
    exact he
  have hlen := congrArg List.length hpow
  rw [length_power, List.length_take] at hlen
  have : 2 * (ofCells w).length ≤ j * (ofCells w).length := Nat.mul_le_mul_right _ hj
  omega

end Circles

theorem shortestLoop_eq {loop around : Segment} (hc : circle loop = around)
    (h : 2 ≤ (loop.take (turnLength around) ++ loop.drop around.length).length) :
    shortestLoop loop = loop.take (turnLength around) ++ loop.drop around.length := by
  rw [turnLength] at h ⊢
  rw [shortestLoop, hc]
  cases hp : period? around with
  | none =>
      simp only [hp, Option.getD_none, List.take_append_drop] at h ⊢
      split
      · simp at h
      · rfl
  | some m =>
      simp only [hp, Option.getD_some] at h ⊢
      split
      · next he => simp [he] at h
      · rfl

theorem circle_of_circular {loop : Segment} (h : Circular loop) : circle loop = loop := by
  match loop with
  | [] => rfl
  | [r] => rfl
  | a :: b :: t =>
      obtain ⟨z, hz⟩ : ∃ z, (a :: b :: t).getLast? = some z :=
        ⟨_, List.getLast?_eq_some_getLast (List.cons_ne_nil a _)⟩
      have : ¬ a.same z = true := by
        rw [Run.same_iff]
        exact (h.ends z hz a rfl).symm
      simp only [circle, hz, this]
      rfl

theorem circle_of_wrapped {a z : Run} {mid : Segment} (h : a.cell = z.cell) (hne : mid ≠ []) :
    circle (a :: (mid ++ [z])) = a.withCount (a.count + z.count) :: mid := by
  obtain ⟨b, t, rfl⟩ := List.exists_cons_of_ne_nil hne
  have : a.same z = true := (Run.same_iff a z).mpr h
  simp [circle, this, List.getLast?_cons, List.dropLast]

/-- A merged loop is empty, a single run, a circle, or a circle cut inside a run. -/
theorem loop_cases {loop : Segment} (h : Coalesced loop) :
    loop = [] ∨ (∃ r, loop = [r]) ∨ Circular loop ∧ 2 ≤ loop.length ∨
      ∃ a mid z, loop = a :: (mid ++ [z]) ∧ mid ≠ [] ∧ a.cell = z.cell := by
  match loop with
  | [] => exact .inl rfl
  | [r] => exact .inr (.inl ⟨r, rfl⟩)
  | a :: b :: t =>
      right
      right
      have hne := List.cons_ne_nil b t
      obtain ⟨mid, z, hz⟩ : ∃ mid z, b :: t = mid ++ [z] :=
        ⟨_, _, (List.dropLast_append_getLast hne).symm⟩
      by_cases hcell : a.cell = z.cell
      · refine .inr ⟨a, mid, z, by rw [hz], ?_, hcell⟩
        rintro rfl
        rw [hz] at h
        exact (List.isChain_cons_cons.mp h).1 hcell
      · refine .inl ⟨⟨h, fun x hx y hy => ?_⟩, by simp⟩
        rw [hz, ← List.cons_append, List.getLast?_concat, Option.mem_some_iff] at hx
        cases hx
        cases hy
        exact fun he => hcell he.symm

/-- What `shortestLoop` makes of a loop. -/
structure Shortened (loop short : Segment) : Prop where
  positive : Segment.Positive short
  coalesced : Coalesced short
  shortest : Shortest (cells short)
  turn_eq : turn (cells short) = turn (cells loop)

theorem shortened_nil : Shortened [] (shortestLoop []) :=
  ⟨positive_nil, .nil, fun _ hp _ => hp.le, rfl⟩

theorem shortened_singleton {r : Run} (hr : 0 < r.count) : Shortened [r] (shortestLoop [r]) := by
  have he : shortestLoop [r] = [r.withCount 1] := by simp [shortestLoop, circle, period?]
  rw [he]
  refine ⟨positive_cons.mpr ⟨Nat.one_pos, positive_nil⟩, .singleton _, shortest_singleton _, ?_⟩
  have : cells [r] = (List.replicate r.count (cells [r.withCount 1])).flatten := by
    simp
  rw [this, turn_power hr]

theorem shortened_circular {loop : Segment} (h : Circular loop) (hp : Segment.Positive loop)
    (hne : loop ≠ []) : Shortened loop (shortestLoop loop) := by
  have htake : loop.take (turnLength loop) ++ loop.drop loop.length =
      loop.take (turnLength loop) := by simp
  have hc := circular_take h hne
  obtain ⟨k, hk, he⟩ := eq_power_turnLength hne
  have hne' : loop.take (turnLength loop) ≠ [] := by
    intro h0
    rw [h0] at he
    simp [hne] at he
  rw [shortestLoop_eq (circle_of_circular h) (by rw [htake]; exact hc.two_le_length hne'), htake]
  refine ⟨fun r hr => hp r (List.mem_of_mem_take hr), hc.coalesced, shortest_take h hp hne, ?_⟩
  conv_rhs => rw [he, cells_power, turn_power hk]

theorem turnLength_le_length (s : Segment) : turnLength s ≤ s.length := by
  rw [turnLength]
  cases hp : period? s with
  | none => exact Nat.le_refl _
  | some m =>
      obtain ⟨⟨hm, hmod, -⟩, -⟩ := period?_eq_some hp
      rcases Nat.eq_zero_or_pos s.length with h0 | hpos
      · simp [period?, h0] at hp
      · exact Nat.le_of_dvd hpos (Nat.dvd_of_mod_eq_zero hmod)

theorem circular_of_wrapped {a z : Run} {mid : Segment} (h : Coalesced (a :: (mid ++ [z])))
    (hne : mid ≠ []) (hcell : a.cell = z.cell) (n : ℕ) :
    Circular (a.withCount n :: mid) := by
  obtain ⟨b, t, rfl⟩ := List.exists_cons_of_ne_nil hne
  obtain ⟨hab, hmid⟩ := List.isChain_cons_cons.mp h
  obtain ⟨ht, -, hz⟩ := List.isChain_append.mp
    (show List.IsChain _ ((b :: t) ++ [z]) from hmid)
  refine ⟨List.isChain_cons_cons.mpr ⟨hab, ht⟩, fun x hx y hy => ?_⟩
  cases hy
  rw [List.getLast?_cons_cons] at hx
  rw [Run.cell_withCount, hcell]
  exact hz x hx z rfl

theorem shortened_wrapped {a z : Run} {mid : Segment} (hc : Coalesced (a :: (mid ++ [z])))
    (hp : Segment.Positive (a :: (mid ++ [z]))) (hne : mid ≠ []) (hcell : a.cell = z.cell) :
    Shortened (a :: (mid ++ [z])) (shortestLoop (a :: (mid ++ [z]))) := by
  obtain ⟨ha, hmid, hz⟩ : 0 < a.count ∧ Segment.Positive mid ∧ 0 < z.count := by
    simpa only [positive_cons, positive_append, positive_nil, and_true] using hp
  have hcirc := circular_of_wrapped hc hne hcell (a.count + z.count)
  have hpos : Segment.Positive (a.withCount (a.count + z.count) :: mid) :=
    positive_cons.mpr ⟨Nat.add_pos_left ha _, hmid⟩
  have harc := circle_of_wrapped hcell hne
  obtain ⟨k, hk, he⟩ := eq_power_turnLength (List.cons_ne_nil (a.withCount (a.count + z.count)) mid)
  have htake := circular_take hcirc (List.cons_ne_nil _ _)
  have hshort := shortest_take hcirc hpos (List.cons_ne_nil _ _)
  have hle := turnLength_le_length (a.withCount (a.count + z.count) :: mid)
  generalize hm : turnLength (a.withCount (a.count + z.count) :: mid) = m at he htake hshort hle
  cases m with
  | zero => simp at he
  | succ m =>
      rw [List.take_succ_cons] at he htake hshort
      have hdrop : (a :: (mid ++ [z])).drop (mid.length + 1) = [z] := by simp
      have hfirst : (a :: (mid ++ [z])).take (m + 1) = a :: mid.take m := by
        rw [List.take_succ_cons, List.take_append_of_le_length (by simpa using hle)]
      have hloop : shortestLoop (a :: (mid ++ [z])) = a :: (mid.take m ++ [z]) := by
        rw [shortestLoop_eq harc] <;> rw [hm, List.length_cons, hdrop, hfirst]
        · rfl
        · simp
      rw [hloop]
      have hcells : cells (a :: mid) ++ List.replicate z.count z.cell =
          (List.replicate k
            (cells (a :: mid.take m) ++ List.replicate z.count z.cell)).flatten := by
        apply eq_power_swap
        have := congrArg cells he
        rw [cells_power] at this
        simpa only [cells_cons, Run.cell_withCount, Run.count_withCount, Nat.add_comm a.count,
          List.replicate_add, ← hcell, List.append_assoc] using this
      have hsplit : ∀ t,
          cells (a :: (t ++ [z])) = cells (a :: t) ++ List.replicate z.count z.cell := by
        intro t
        rw [← List.cons_append, cells_append]
        simp
      refine ⟨?_, ?_, ?_, ?_⟩
      · simp only [positive_cons, positive_append, positive_nil, and_true]
        exact ⟨ha, fun r hr => hmid r (List.mem_of_mem_take hr), hz⟩
      · obtain ⟨b, t, ht⟩ := List.exists_cons_of_ne_nil (l := mid.take m) (by
          intro h0
          simpa [h0] using htake.two_le_length (List.cons_ne_nil _ _))
        rw [ht] at htake ⊢
        obtain ⟨hab, hbt⟩ := List.isChain_cons_cons.mp htake.coalesced
        refine List.isChain_cons_cons.mpr ⟨hab, List.isChain_append.mpr ⟨hbt, .singleton z, ?_⟩⟩
        intro x hx y hy
        cases hy
        rw [← hcell]
        exact htake.ends x (by rwa [List.getLast?_cons_cons]) (a.withCount _) rfl
      · rw [hsplit]
        apply Shortest.swap
        simpa only [cells_cons, Run.cell_withCount, Run.count_withCount, Nat.add_comm a.count,
          List.replicate_add, ← hcell, List.append_assoc] using hshort
      · rw [hsplit mid, hcells, turn_power hk, hsplit]

theorem shortened_shortestLoop {loop : Segment} (hp : Segment.Positive loop)
    (hc : Coalesced loop) : Shortened loop (shortestLoop loop) := by
  rcases loop_cases hc with rfl | ⟨r, rfl⟩ | ⟨hcirc, hlen⟩ | ⟨a, mid, z, rfl, hne, hcell⟩
  · exact shortened_nil
  · exact shortened_singleton (positive_cons.mp hp).1
  · exact shortened_circular hcirc hp (by rintro rfl; simp at hlen)
  · exact shortened_wrapped hc hp hne hcell

end ArgList

end CatalogLint
