import CatalogLint.Proofs.ArgList.ShortestLoop

/-!
# Normal forms

`normalizeOutermost` describes the same arguments (`cellAt_normalizeOutermost`) and yields a list
in `Normal` form, which is determined by the arguments that it describes (`Normal.ext`). The
lists of compound elements are taken as they are.
-/
namespace CatalogLint.ArgList
open Sequence Segment

/-- What is left of a run when `k` of its arguments are taken away. -/
def remainder (r : Run) (k : ℕ) : Segment :=
  if r.count = k then [] else [r.withCount (r.count - k)]

theorem cells_remainder (r : Run) (k : ℕ) :
    cells (remainder r k) = List.replicate (r.count - k) r.cell := by
  rw [remainder]
  split_ifs with h
  · simp [h]
  · simp

theorem positive_remainder {r : Run} {k : ℕ} (hk : k ≤ r.count) :
    Segment.Positive (remainder r k) := by
  rw [remainder]
  split_ifs with h
  · exact positive_nil
  · exact positive_cons.mpr ⟨by rw [Run.count_withCount]; omega, positive_nil⟩

theorem coalesced_append_remainder {s : Segment} {r : Run} (h : Coalesced (s ++ [r])) (k : ℕ) :
    Coalesced (s ++ remainder r k) := by
  obtain ⟨hs, -, hr⟩ := List.isChain_append.mp h
  rw [remainder]
  split_ifs
  · rwa [List.append_nil]
  · refine List.isChain_append.mpr ⟨hs, .singleton _, fun x hx y hy => ?_⟩
    cases hy
    exact hr x hx r rfl

theorem turnBack_concat (a z : Run) (t : Segment) (k : ℕ) :
    turnBack k (a :: t ++ [z]) =
      (if a.cell = z.cell then a.withCount (a.count + k) :: t else z.withCount k :: a :: t) ++
        remainder z k := by
  simp only [turnBack, List.getLast?_concat, List.dropLast_concat, remainder, Run.same_iff]

/-- A loop turned back begins with the arguments that were its last ones. -/
structure TurnedBack (front : Segment) (z : Run) (k : ℕ) (loop : Segment) : Prop where
  positive : Segment.Positive loop
  coalesced : Coalesced loop
  two_le : 2 ≤ loop.length
  cells_eq : cells loop =
    List.replicate k z.cell ++ cells front ++ List.replicate (z.count - k) z.cell
  last_ne : z.count = k → ∀ r ∈ loop.getLast?, r.cell ≠ z.cell

theorem turnedBack_turnBack {front : Segment} {z : Run} {k : ℕ} (hne : front ≠ [])
    (hp : Segment.Positive (front ++ [z])) (hc : Coalesced (front ++ [z])) (hk₀ : 0 < k)
    (hk : k ≤ z.count) : TurnedBack front z k (turnBack k (front ++ [z])) := by
  obtain ⟨a, t, rfl⟩ := List.exists_cons_of_ne_nil hne
  obtain ⟨hpf, hpz⟩ := positive_append.mp hp
  obtain ⟨hpa, hpt⟩ := positive_cons.mp hpf
  obtain ⟨hcf, -, hlast⟩ := List.isChain_append.mp hc
  by_cases hsame : a.cell = z.cell
  · obtain ⟨b, t, rfl⟩ := List.exists_cons_of_ne_nil (l := t) (by
      rintro rfl
      exact hlast a rfl z rfl hsame)
    rw [turnBack_concat, if_pos hsame]
    refine ⟨?_, ?_, by simp, ?_, ?_⟩
    · exact positive_append.mpr
        ⟨positive_cons.mpr ⟨Nat.add_pos_left hpa k, hpt⟩, positive_remainder hk⟩
    · obtain ⟨hab, hbt⟩ := List.isChain_cons_cons.mp (coalesced_append_remainder hc k)
      exact List.isChain_cons_cons.mpr ⟨hab, hbt⟩
    · rw [cells_append, cells_remainder, cells_cons, Run.count_withCount, Run.cell_withCount,
        Nat.add_comm, List.replicate_add, cells_cons a, hsame]
      simp only [List.append_assoc]
    · intro hz r hr
      rw [remainder, if_pos hz, List.append_nil, List.getLast?_cons_cons] at hr
      exact hlast r (by rwa [List.getLast?_cons_cons]) z rfl
  · rw [turnBack_concat, if_neg hsame]
    refine ⟨?_, ?_, by simp, ?_, ?_⟩
    · exact positive_cons.mpr ⟨hk₀, positive_append.mpr ⟨hpf, positive_remainder hk⟩⟩
    · exact List.isChain_cons_cons.mpr
        ⟨fun h => hsame h.symm, coalesced_append_remainder hc k⟩
    · rw [cells_cons, cells_append, cells_remainder]
      simp
    · intro hz r hr
      rw [remainder, if_pos hz, List.append_nil, List.getLast?_cons_cons] at hr
      exact hlast r hr z rfl

/-- The runs are merged and the loop is a shortest one; only its place may still change. -/
structure Merged (l : ArgList) : Prop where
  positive : l.Positive
  initial : Coalesced l.initial
  repeated : Coalesced l.repeated
  shortest : Shortest (cells l.repeated)

/-- The form that `normalizeOutermost` brings a list into. -/
structure Normal (l : ArgList) : Prop extends Merged l where
  tight : Tight (cells l.initial) (cells l.repeated)

theorem lasso_replicate {x : Cell} {c : ℕ} (hc : 0 < c) (j : ℕ) :
    lasso (List.replicate j x) (List.replicate c x) = turn (List.replicate c x) := by
  have hx : turn (List.replicate c x) = turn [x] := by
    rw [← turn_power (w := [x]) hc, List.flatten_replicate_singleton]
  have hj : lasso (List.replicate j x) [x] = turn [x] := by
    simpa using lasso_power_append (lasso_nil [x]) j
  rw [hx, ← hj]
  funext n
  simp only [lasso, hx]

theorem tight_of_cell_ne {s t : Segment} (hs : Segment.Positive s) (ht : Segment.Positive t)
    (h : ∀ r ∈ s.getLast?, ∀ z ∈ t.getLast?, r.cell ≠ z.cell) : Tight (cells s) (cells t) := by
  intro x hx hx'
  rw [getLast?_cells hs] at hx
  rw [getLast?_cells ht] at hx'
  obtain ⟨r, hr, rfl⟩ := Option.map_eq_some_iff.mp hx
  obtain ⟨z, hz, hc⟩ := Option.map_eq_some_iff.mp hx'
  exact h r hr z hz hc.symm

theorem Merged.turnBack {front body : Segment} {r z : Run} {k : ℕ}
    (h : Merged ⟨front ++ [r], body ++ [z]⟩) (hne : body ≠ []) (hcell : r.cell = z.cell)
    (hk₀ : 0 < k) (hr : k ≤ r.count) (hz : k ≤ z.count) :
    Merged ⟨front ++ remainder r k, turnBack k (body ++ [z])⟩ ∧
      cellAt ⟨front ++ remainder r k, turnBack k (body ++ [z])⟩ =
        cellAt ⟨front ++ [r], body ++ [z]⟩ := by
  have hback := turnedBack_turnBack hne h.positive.2 h.repeated hk₀ hz
  have hfront := (positive_append.mp h.positive.1).1
  have hbody : cells (body ++ [z]) =
      cells body ++ List.replicate (z.count - k) z.cell ++ List.replicate k z.cell := by
    rw [cells_append, List.append_assoc, List.replicate_append_replicate, Nat.sub_add_cancel hz]
    simp
  have hinit : cells (front ++ [r]) =
      cells front ++ List.replicate (r.count - k) r.cell ++ List.replicate k r.cell := by
    rw [cells_append, List.append_assoc, List.replicate_append_replicate, Nat.sub_add_cancel hr]
    simp
  refine ⟨⟨⟨positive_append.mpr ⟨hfront, positive_remainder hr⟩, hback.positive⟩,
    coalesced_append_remainder h.initial k, hback.coalesced, ?_⟩, ?_⟩
  · have := h.shortest
    simp only [hbody] at this
    rw [hback.cells_eq, List.append_assoc]
    exact this.swap
  · simp only [cellAt_eq_lasso]
    rw [hinit, hbody, cells_append, cells_remainder, hback.cells_eq, hcell, List.append_assoc]
    generalize cells body ++ List.replicate (z.count - k) z.cell = v
    have hmove : lasso (List.replicate k z.cell) (v ++ List.replicate k z.cell) =
        lasso [] (List.replicate k z.cell ++ v) := by rw [lasso_append_self, lasso_nil]
    rw [lasso_congr _ hmove, List.append_nil]

/-- Moving the tail of the initial segment, a run at a time, ends in normal form. -/
theorem absorb_normal {front loop : Segment} (h : Merged ⟨front.reverse, loop⟩)
    (hlen : loop.length ≠ 1) :
    Normal ⟨(absorb front loop).1.reverse, (absorb front loop).2⟩ ∧
      cellAt ⟨(absorb front loop).1.reverse, (absorb front loop).2⟩ =
        cellAt ⟨front.reverse, loop⟩ := by
  induction front generalizing loop with
  | nil => exact ⟨⟨h, nofun⟩, rfl⟩
  | cons r front ih =>
      rcases List.eq_nil_or_concat loop with rfl | ⟨body, z, rfl⟩
      · exact ⟨⟨h, nofun⟩, rfl⟩
      rw [List.concat_eq_append] at h hlen ⊢
      rw [List.reverse_cons] at h ⊢
      have hne : body ≠ [] := by
        rintro rfl
        exact hlen rfl
      have hr := (positive_cons.mp (positive_append.mp h.positive.1).2).1
      have hz := (positive_cons.mp (positive_append.mp h.positive.2).2).1
      rw [absorb, List.getLast?_concat]
      simp only [Bool.not_eq_true', Run.same_iff, ← Bool.not_eq_true]
      by_cases hcell : r.cell = z.cell
      · rw [if_neg (not_not.mpr hcell)]
        by_cases hle : r.count ≤ z.count
        · rw [if_pos hle]
          have hlen' := (turnedBack_turnBack hne h.positive.2 h.repeated hr hle).two_le
          obtain ⟨hm, heq⟩ := h.turnBack hne hcell hr (Nat.le_refl _) hle
          rw [remainder, if_pos rfl, List.append_nil] at hm heq
          rw [← heq]
          exact ih hm (by omega)
        · rw [if_neg hle]
          have hlt : z.count ≤ r.count := (Nat.lt_of_not_le hle).le
          have hback := turnedBack_turnBack hne h.positive.2 h.repeated hz (Nat.le_refl _)
          obtain ⟨hm, heq⟩ := h.turnBack hne hcell hz hlt (Nat.le_refl _)
          rw [remainder, if_neg (by omega)] at hm heq
          rw [List.reverse_cons]
          refine ⟨⟨hm, tight_of_cell_ne hm.positive.1 hback.positive fun q hq w hw => ?_⟩, heq⟩
          rw [List.getLast?_concat, Option.mem_some_iff] at hq
          rw [← hq, Run.cell_withCount, hcell]
          exact (hback.last_ne rfl w hw).symm
      · rw [if_pos hcell, List.reverse_cons]
        refine ⟨⟨h, tight_of_cell_ne h.positive.1 h.positive.2 fun q hq w hw => ?_⟩, rfl⟩
        rw [List.getLast?_concat, Option.mem_some_iff] at hq hw
        rwa [← hq, ← hw]

theorem rollIn_normal {initial loop : Segment} (h : Merged ⟨initial, loop⟩) :
    Normal (rollIn initial loop) ∧ (rollIn initial loop).cellAt = cellAt ⟨initial, loop⟩ := by
  unfold rollIn
  split
  · next z =>
    have hz := (positive_cons.mp h.positive.2).1
    rcases List.eq_nil_or_concat initial with rfl | ⟨front, r, rfl⟩
    · exact ⟨⟨h, nofun⟩, rfl⟩
    rw [List.concat_eq_append] at h ⊢
    rw [List.getLast?_concat]
    simp only [Run.same_iff, List.dropLast_concat]
    obtain ⟨hfront, -, hlast⟩ := List.isChain_append.mp h.initial
    have hpos := (positive_append.mp h.positive.1).1
    by_cases hcell : r.cell = z.cell
    · rw [if_pos hcell]
      refine ⟨⟨⟨⟨hpos, h.positive.2⟩, hfront, h.repeated, h.shortest⟩,
        tight_of_cell_ne hpos h.positive.2 fun q hq w hw => ?_⟩, ?_⟩
      · cases hw
        change q.cell ≠ z.cell
        rw [← hcell]
        exact hlast q hq r rfl
      · have hroll : lasso (cells [r]) (cells [z]) = lasso [] (cells [z]) := by
          rw [lasso_nil]
          simpa [hcell] using lasso_replicate hz r.count
        simp only [cellAt_eq_lasso, cells_append]
        rw [lasso_congr _ hroll, List.append_nil]
    · rw [if_neg hcell]
      refine ⟨⟨h, tight_of_cell_ne h.positive.1 h.positive.2 fun q hq w hw => ?_⟩, rfl⟩
      rw [List.getLast?_concat, Option.mem_some_iff] at hq
      cases hw
      rwa [← hq]
  · next hloop =>
    have hlen : loop.length ≠ 1 := by
      intro hlen
      obtain ⟨r, rfl⟩ := List.length_eq_one_iff.mp hlen
      exact hloop r rfl
    have hrev : Merged ⟨initial.reverse.reverse, loop⟩ := by rwa [List.reverse_reverse]
    simpa only [List.reverse_reverse] using absorb_normal hrev hlen

theorem merged_coalesce {l : ArgList} (h : l.Positive) :
    Merged ⟨coalesce l.initial, shortestLoop (coalesce l.repeated)⟩ := by
  have hs := shortened_shortestLoop h.2.coalesce (coalesced_coalesce l.repeated)
  exact ⟨⟨h.1.coalesce, hs.positive⟩, coalesced_coalesce _, hs.coalesced, hs.shortest⟩

theorem normal_normalizeOutermost {l : ArgList} (h : l.Positive) : l.normalizeOutermost.Normal :=
  (rollIn_normal (merged_coalesce h)).1

theorem cellAt_normalizeOutermost {l : ArgList} (h : l.Positive) :
    l.normalizeOutermost.cellAt = l.cellAt := by
  have hs := shortened_shortestLoop h.2.coalesce (coalesced_coalesce l.repeated)
  rw [normalizeOutermost, (rollIn_normal (merged_coalesce h)).2, cellAt_eq_lasso, cellAt_eq_lasso]
  funext n
  simp only [lasso, hs.turn_eq, cells_coalesce]

/-- Lists in normal form are determined by what they say at each position. -/
theorem Normal.ext {a b : ArgList} (ha : a.Normal) (hb : b.Normal) (h : a.cellAt = b.cellAt) :
    a = b := by
  rw [cellAt_eq_lasso, cellAt_eq_lasso] at h
  obtain ⟨hi, hr⟩ := lasso_injective ha.shortest hb.shortest ha.tight hb.tight h
  cases a
  cases b
  rw [mk.injEq]
  exact ⟨cells_injective ha.positive.1 hb.positive.1 ha.initial hb.initial hi,
    cells_injective ha.positive.2 hb.positive.2 ha.repeated hb.repeated hr⟩

end CatalogLint.ArgList
