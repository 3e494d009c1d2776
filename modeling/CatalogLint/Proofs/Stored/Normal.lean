import CatalogLint.Proofs.ArgList.Canonical
import CatalogLint.Proofs.Stored.ShortestLoop

/-!
# Normal forms of stored lists

`normalizeOutermost` and `normalize` bring a stored list into the normal form of the list, without
a defect. No segment gets longer on the way.
-/
namespace CatalogLint

namespace ArgList
variable {w : Word} {l : ArgList} {loop body front : Segment} {a r z : Run} {k : ℕ}

section Absorbing

theorem takeLast_stored (s : Segment) (hk : k ≤ z.count) :
    StoredList.takeLast ((s ++ [z]).map Run.stored) k =
      .ok ((s ++ remainder z k).map Run.stored) := by
  have hlength : ((s ++ [z]).map Run.stored).length - 1 = s.length := by simp
  have hlast := entry_located s [] z
  have hreplace : ∀ ys, Checked.replace ((s ++ [z]).map Run.stored) s.length ys =
      .ok (s.map Run.stored ++ ys) := by
    intro ys
    have h : Checked.replace (s.map Run.stored ++ z.stored :: []) s.length ys =
        .ok (s.map Run.stored ++ ys ++ []) := Checked.replace_append (by simp) ys
    rw [List.map_append]
    simpa using h
  rw [StoredList.takeLast, Checked.sub_eq (by simp), hlength, Checked.ok_bind, hlast,
    Checked.ok_bind, Run.count_stored, Checked.sub_eq hk, Checked.ok_bind, hreplace, remainder,
    List.map_append]
  split_ifs with hzero hcount hcount
  · rfl
  · omega
  · omega
  · simp

theorem turnBack_stored (hne : body ≠ []) (hk : k ≤ z.count)
    (hfits : w.Fits (Segment.extent (body ++ [z]))) :
    StoredList.turnBack w ((body ++ [z]).map Run.stored) k =
      .ok ((turnBack k (body ++ [z])).map Run.stored) := by
  obtain ⟨a, t, rfl⟩ := List.exists_cons_of_ne_nil hne
  have hlength : ((a :: t ++ [z]).map Run.stored).length - 1 = (a :: t).length := by simp
  have hfirst : Checked.entry ((a :: t ++ [z]).map Run.stored) 0 = .ok a.stored := rfl
  have hcount : w.Fits (a.count + k) := by
    apply hfits.mono
    rw [Segment.extent_concat, Segment.extent]
    omega
  rw [StoredList.turnBack, hfirst, Checked.ok_bind, Checked.sub_eq (by simp), hlength,
    Checked.ok_bind, entry_located (a :: t) [] z, Checked.ok_bind, turnBack_concat, Run.same_stored]
  simp only [Run.same_iff]
  split_ifs with hsame
  · have hreplace : Checked.replace ((a :: t ++ [z]).map Run.stored) 0
        [(a.withCount (a.count + k)).stored] =
          .ok ((a.withCount (a.count + k) :: t ++ [z]).map Run.stored) := by simp
    rw [Run.count_stored, Word.add_eq hcount, Checked.ok_bind, Run.stored_withCount, hreplace,
      Checked.ok_bind, takeLast_stored _ hk]
  · have hinsert : Checked.insert ((a :: t ++ [z]).map Run.stored) 0 (z.withCount k).stored =
        .ok ((z.withCount k :: a :: t ++ [z]).map Run.stored) := by simp [Checked.insert]
    rw [Run.stored_withCount, hinsert, Checked.ok_bind, takeLast_stored _ hk]

theorem extent_turnBack (hne : body ≠ []) (hpos : Segment.Positive (body ++ [z]))
    (hc : Segment.Coalesced (body ++ [z])) (hk₀ : 0 < k) (hk : k ≤ z.count) :
    Segment.extent (turnBack k (body ++ [z])) = Segment.extent (body ++ [z]) := by
  have hcells := congrArg List.length (turnedBack_turnBack hne hpos hc hk₀ hk).cells_eq
  simp only [List.length_append, List.length_replicate, Segment.length_cells] at hcells
  rw [hcells, Segment.extent_concat]
  omega

theorem extent_remainder (r : Run) (k : ℕ) : Segment.extent (remainder r k) = r.count - k := by
  rw [← Segment.length_cells, cells_remainder, List.length_replicate]

/-- One step: as many arguments as both last runs have go from the one to the other. -/
theorem absorb_step {steps : ℕ} (h : Merged ⟨front ++ [r], body ++ [z]⟩) (hne : body ≠ [])
    (hcell : r.cell = z.cell) (hfits : w.Fits (Segment.extent (body ++ [z]))) :
    StoredList.absorb w (steps + 1) (stored ⟨front ++ [r], body ++ [z]⟩) =
      StoredList.absorb w steps (stored ⟨front ++ remainder r (min r.count z.count),
        turnBack (min r.count z.count) (body ++ [z])⟩) := by
  have hr := (Segment.positive_cons.mp (Segment.positive_append.mp h.positive.1).2).1
  have hz := (Segment.positive_cons.mp (Segment.positive_append.mp h.positive.2).2).1
  have hk₀ : 0 < min r.count z.count := lt_min hr hz
  have hkr : min r.count z.count ≤ r.count := min_le_left _ _
  have hkz : min r.count z.count ≤ z.count := min_le_right _ _
  have hextent : Segment.extent (front ++ remainder r (min r.count z.count)) =
      Segment.extent (front ++ [r]) - min r.count z.count := by
    rw [Segment.extent_append, extent_remainder, Segment.extent_concat]
    omega
  have hextent_le : min r.count z.count ≤ Segment.extent (front ++ [r]) := by
    rw [Segment.extent_concat]
    omega
  have hloop := extent_turnBack hne h.positive.2 h.repeated hk₀ hkz
  have hturn := turnBack_stored hne hkz hfits
  have hrest : (if r.count - min r.count z.count = 0 then front.map Run.stored
      else front.map Run.stored ++ [(r.withCount (r.count - min r.count z.count)).stored]) =
        (front ++ remainder r (min r.count z.count)).map Run.stored := by
    rw [remainder, List.map_append]
    split_ifs with hzero hcount hcount
    · simp
    · omega
    · omega
    · rfl
  rw [StoredList.absorb]
  simp only [stored, Segment.stored, List.map_append, List.map_cons, List.map_nil,
    List.getLast?_concat, List.dropLast_concat, Run.same_stored, Run.count_stored,
    Run.stored_withCount] at hturn hrest ⊢
  rw [if_pos ((Run.same_iff r z).mpr hcell), hturn, Checked.ok_bind, Checked.sub_eq hkr,
    Checked.ok_bind, Checked.sub_eq hextent_le, Checked.ok_bind, hrest, hextent, hloop]

theorem absorb_stop {steps : ℕ} (hcell : r.cell ≠ z.cell) :
    StoredList.absorb w (steps + 1) (stored ⟨front ++ [r], body ++ [z]⟩) =
      .ok (stored ⟨front ++ [r], body ++ [z]⟩) := by
  rw [StoredList.absorb]
  simp only [stored, Segment.stored, List.map_append, List.map_cons, List.map_nil,
    List.getLast?_concat, Run.same_stored, Run.same_iff, if_neg hcell]
  rfl

/-- Absorbing the tail of the initial segment, a run at a time. -/
theorem absorb_stored {steps : ℕ} (h : Merged ⟨front.reverse, loop⟩) (hlen : loop.length ≠ 1)
    (hsteps : front.length < steps) (hfits : w.Fits (Segment.extent loop)) :
    StoredList.absorb w steps (stored ⟨front.reverse, loop⟩) =
      .ok (stored ⟨(absorb front loop).1.reverse, (absorb front loop).2⟩) := by
  induction front generalizing loop steps with
  | nil =>
      obtain ⟨steps, rfl⟩ := Nat.exists_eq_add_of_lt hsteps
      rfl
  | cons r front ih =>
      obtain ⟨steps, rfl⟩ : ∃ n, steps = n + 1 := ⟨steps - 1, by omega⟩
      rw [List.length_cons] at hsteps
      rw [List.reverse_cons] at h ⊢
      rcases List.eq_nil_or_concat loop with rfl | ⟨body, z, rfl⟩
      · simp [StoredList.absorb, absorb]
      rw [List.concat_eq_append] at h hlen hfits ⊢
      have hne : body ≠ [] := by
        rintro rfl
        exact hlen rfl
      have hr := (Segment.positive_cons.mp (Segment.positive_append.mp h.positive.1).2).1
      have hz := (Segment.positive_cons.mp (Segment.positive_append.mp h.positive.2).2).1
      rw [absorb, List.getLast?_concat]
      simp only [Bool.not_eq_true', Run.same_iff, ← Bool.not_eq_true]
      by_cases hcell : r.cell = z.cell
      · rw [if_neg (not_not.mpr hcell), absorb_step h hne hcell hfits]
        by_cases hle : r.count ≤ z.count
        · have hback := turnedBack_turnBack hne h.positive.2 h.repeated hr hle
          obtain ⟨hm, -⟩ := h.turnBack hne hcell hr (Nat.le_refl _) hle
          have hlen' := hback.two_le
          rw [remainder, if_pos rfl, List.append_nil] at hm
          rw [if_pos hle, min_eq_left hle, remainder, if_pos rfl, List.append_nil]
          refine ih hm (by omega) (by omega) ?_
          rwa [extent_turnBack hne h.positive.2 h.repeated hr hle]
        · -- the loop now ends in another constraint
          have hlt : z.count ≤ r.count := (Nat.lt_of_not_le hle).le
          have hback := turnedBack_turnBack hne h.positive.2 h.repeated hz (Nat.le_refl _)
          obtain ⟨body', y, hy⟩ : ∃ body' y, turnBack z.count (body ++ [z]) = body' ++ [y] := by
            have hlen' := hback.two_le
            obtain hnil | ⟨body', y, hy⟩ :=
              List.eq_nil_or_concat (turnBack z.count (body ++ [z]))
            · simp [hnil] at hlen'
            · exact ⟨body', y, by rw [hy, List.concat_eq_append]⟩
          have hne' : y.cell ≠ z.cell := hback.last_ne rfl y (by rw [hy, List.getLast?_concat]; rfl)
          obtain ⟨steps, rfl⟩ : ∃ n, steps = n + 1 := ⟨steps - 1, by omega⟩
          rw [if_neg hle, min_eq_right hlt, remainder, if_neg (by omega), hy, List.reverse_cons]
          exact absorb_stop fun he => hne' (he.symm.trans hcell)
      · rw [if_pos hcell, List.reverse_cons]
        exact absorb_stop hcell

end Absorbing

section Rolling
variable {initial : Segment}

theorem rollIn_stored (h : Merged ⟨initial, loop⟩) (hfits : w.Fits (Segment.extent loop)) :
    (stored ⟨initial, loop⟩).rollIn w = .ok (rollIn initial loop).stored := by
  rw [StoredList.rollIn, repeated_stored, initial_stored, Segment.runs_stored, List.length_map]
  split_ifs with hlen
  · obtain ⟨z, rfl⟩ := List.length_eq_one_iff.mp hlen
    rcases List.eq_nil_or_concat initial with rfl | ⟨front, r, rfl⟩
    · rfl
    rw [List.concat_eq_append, Segment.pop_stored]
    simp only [rollIn, Segment.runs_stored, List.map_append, List.map_cons, List.map_nil,
      Checked.entry_cons, Checked.ok_bind, List.getLast?_concat, Option.any_some,
      Run.same_stored, List.dropLast_concat]
    split_ifs <;> rfl
  · have hrev : Merged ⟨initial.reverse.reverse, loop⟩ := by rwa [List.reverse_reverse]
    have hsteps : initial.reverse.length < Segment.extent initial + 1 := by
      rw [List.length_reverse]
      exact Nat.lt_succ_of_le (Segment.length_le_extent h.positive.1)
    have habsorb := absorb_stored hrev hlen hsteps hfits
    rw [List.reverse_reverse] at habsorb
    rw [Segment.length_stored, habsorb]
    unfold rollIn
    split
    · exact absurd rfl hlen
    · rfl

/-- The normal form has the shortest initial segment of all lists with a shortest loop. -/
theorem Normal.extent_le {a b : ArgList} (ha : a.Normal) (hb : b.Merged)
    (h : a.cellAt = b.cellAt) : Segment.extent a.initial ≤ Segment.extent b.initial ∧
      Segment.extent a.repeated = Segment.extent b.repeated := by
  simp only [← Segment.length_cells]
  rw [cellAt_eq_lasso, cellAt_eq_lasso] at h
  by_cases hloop : Segment.cells b.repeated = []
  · rw [hloop] at h
    have hnil := Sequence.loop_eq_nil h.symm
    rw [hnil] at h
    have hcells : Segment.cells a.initial = Segment.cells b.initial := by
      apply List.ext_getElem?
      intro n
      rw [← Sequence.lasso_nil_loop, h, Sequence.lasso_nil_loop]
    rw [hcells, hnil, hloop]
    exact ⟨Nat.le_refl _, rfl⟩
  · have hle := Sequence.length_le_of_lasso hb.shortest ha.shortest ha.tight hloop h.symm
    have hne : Segment.cells a.repeated ≠ [] := by
      intro hnil
      rw [hnil] at h
      exact hloop (Sequence.loop_eq_nil h)
    exact ⟨hle, Sequence.length_loop_eq ha.shortest hb.shortest hne h hle⟩

end Rolling

section Normalizing

/-- No segment gets longer. -/
theorem extent_normalizeOutermost (h : l.Positive) :
    Segment.extent l.normalizeOutermost.initial ≤ Segment.extent l.initial ∧
      Segment.extent l.normalizeOutermost.repeated ≤ Segment.extent l.repeated := by
  have hm := merged_coalesce h
  obtain ⟨hnormal, hcell⟩ := rollIn_normal hm
  obtain ⟨hinitial, hrepeated⟩ := hnormal.extent_le hm hcell
  rw [Segment.extent_coalesce] at hinitial
  refine ⟨hinitial, hrepeated.le.trans ?_⟩
  rw [← Segment.extent_coalesce l.repeated]
  exact extent_shortestLoop (Segment.coalesced_coalesce _) h.2.coalesce

theorem Storable.normalizeOutermost (h : l.Storable w) : l.normalizeOutermost.Storable w := by
  obtain ⟨hinitial, hrepeated⟩ := extent_normalizeOutermost h.positive
  exact h.of_cellAt (normal_normalizeOutermost h.positive).positive
    (cellAt_normalizeOutermost h.positive) (h.initial.mono hinitial) (h.repeated.mono hrepeated)

theorem normalizeOutermost_stored (h : l.Storable w) :
    l.stored.normalizeOutermost w = .ok l.normalizeOutermost.stored := by
  have hloop := shortenLoop_stored (w := w) (Segment.coalesced_coalesce l.repeated)
    h.positive.2.coalesce (by rw [Segment.extent_coalesce]; exact h.repeated)
  have hroll := rollIn_stored (w := w) (merged_coalesce h.positive) (h.repeated.mono (by
    rw [← Segment.extent_coalesce l.repeated]
    exact extent_shortestLoop (Segment.coalesced_coalesce _) h.positive.2.coalesce))
  rw [stored] at hroll
  rw [StoredList.normalizeOutermost, initial_stored, Segment.coalesce_stored h.initial,
    Checked.ok_bind, repeated_stored, Segment.coalesce_stored h.repeated, Checked.ok_bind, hloop,
    Checked.ok_bind, hroll, Checked.ok_bind]
  have hverify := h.normalizeOutermost.verify
  rw [normalizeOutermost] at hverify ⊢
  rw [hverify]
  rfl

end Normalizing

end ArgList

section Nested
variable {w : Word}

theorem Shape.normalize_stored {s : Shape}
    (h : ∀ m, s.elements? = some m → m.stored.normalize w = .ok m.normalize.stored) :
    s.stored.normalize w = .ok s.normalize.stored := by
  cases s with
  | plain k => rfl
  | compound k i r =>
      have hm := h ⟨i, r⟩ rfl
      simp only [ArgList.stored, Segment.stored, ArgList.normalize] at hm
      simp only [Shape.stored, Run.storedList_eq, StoredShape.normalize,
        StoredList.normalizeOption, hm, Checked.ok_bind, Shape.normalize]
      rfl

theorem Run.normalizeList_stored {s : List Run}
    (h : ∀ r ∈ s, r.shape.stored.normalize w = .ok r.shape.normalize.stored) :
    StoredRun.normalizeList w (s.map Run.stored) = .ok ((Run.normalizeList s).map Run.stored) := by
  induction s with
  | nil => rfl
  | cons r s ih =>
      obtain ⟨n, p, t⟩ := r
      obtain ⟨hr, hs⟩ := List.forall_mem_cons.mp h
      rw [List.map_cons, StoredRun.normalizeList, Run.stored, StoredRun.normalize, hr,
        Checked.ok_bind, Checked.pure_eq, Checked.ok_bind, ih hs]
      rfl

theorem Segment.extent_normalizeList (s : Segment) : extent (Run.normalizeList s) = extent s := by
  rw [← length_cells, cells_normalizeList, List.length_map, length_cells]

end Nested

namespace ArgList
variable {w : Word} {l : ArgList}

/-- The list with its element lists in normal form. -/
theorem Storable.normalizeElements (h : l.Storable w)
    (helements : ∀ r ∈ l.runs, ∀ m, r.shape.elements? = some m → m.normalize.Storable w) :
    Storable w ⟨Run.normalizeList l.initial, Run.normalizeList l.repeated⟩ := by
  refine storable_iff.mpr ⟨h.positive.normalizeList, ?_, ?_, fun q hq => ?_⟩
  · rw [Segment.extent_normalizeList]
    exact h.initial
  · rw [Segment.extent_normalizeList]
    exact h.repeated
  · rw [runs, Run.normalizeList_eq_map, Run.normalizeList_eq_map, ← List.map_append] at hq
    obtain ⟨r, hr, rfl⟩ := List.mem_map.mp hq
    rw [Run.normalize_eq]
    refine ⟨fun hc => ?_, fun m hm => ?_⟩
    · rw [Shape.isCompound_normalize] at hc
      rw [Shape.kinds_normalize]
      exact (h.shape hr).type hc
    · rw [Shape.elements?_normalize, Option.map_eq_some_iff] at hm
      obtain ⟨k, hk, rfl⟩ := hm
      exact helements r hr k hk

theorem Storable.normalize (h : l.Storable w) : l.normalize.Storable w := by
  induction h with
  | intro positive initial repeated types elements ih =>
      exact (Storable.normalizeElements (.intro positive initial repeated types elements)
        ih).normalizeOutermost

theorem normalize_stored (h : l.Storable w) : l.stored.normalize w = .ok l.normalize.stored := by
  induction h with
  | @intro l positive initial repeated types elements ih =>
      have h : l.Storable w := .intro positive initial repeated types elements
      have hshape : ∀ r ∈ l.runs, r.shape.stored.normalize w = .ok r.shape.normalize.stored :=
        fun r hr => Shape.normalize_stored (ih r hr)
      have hnested := h.normalizeElements fun r hr m hm => (elements r hr m hm).normalize
      have houtermost := normalizeOutermost_stored hnested
      have hverify := h.verify
      simp only [stored, Segment.stored, Segment.extent_normalizeList] at houtermost hverify ⊢
      rw [StoredList.normalize, hverify, Checked.ok_bind, StoredSegment.normalize,
        Run.normalizeList_stored fun r hr => hshape r (List.mem_append_left _ hr), Checked.ok_bind,
        StoredSegment.normalize,
        Run.normalizeList_stored fun r hr => hshape r (List.mem_append_right _ hr), Checked.ok_bind,
        Checked.pure_eq, Checked.ok_bind, Checked.pure_eq, Checked.ok_bind, houtermost]
      rfl

end ArgList

end CatalogLint
