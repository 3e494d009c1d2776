import CatalogLint.Proofs.ArgList.Ending
import CatalogLint.Proofs.Stored.Segment

/-!
# Changing the representation of a stored list

Each operation on `l.stored` ends in the stored form of what the operation makes of `l`, without a
defect. The conditions are that `l` is storable, that the operation is asked for something it can
do, and that the new extents fit the word.
-/
namespace CatalogLint

namespace ArgList
variable {w : Word} {l : ArgList} {m n : ℕ}

section Unfold

theorem unfold_stored (h : w.Fits (Segment.extent l.repeated * m)) :
    l.stored.unfold w m = .ok (l.unfold m).stored := by
  rw [StoredList.unfold, unfold]
  split_ifs with hm
  · rfl
  · have hlength : Segment.extent (List.replicate m l.repeated).flatten =
        Segment.extent l.repeated * m := by rw [Segment.extent_power, Nat.mul_comm]
    rw [repeated_stored, Segment.length_stored, Word.mul_eq h, Checked.ok_bind, Segment.runs_stored]
    simp only [stored, Segment.stored, hlength, List.map_flatten, List.map_replicate]
    rfl

theorem Storable.unfold (h : l.Storable w) (hm : w.Fits (Segment.extent l.repeated * m)) :
    (l.unfold m).Storable w := by
  refine h.of_cellAt (h.positive.unfold m) (cellAt_unfold l m) ?_ ?_
  · rw [initial_unfold]
    exact h.initial
  · rw [extent_unfold]
    rcases Nat.le_total m 1 with hle | hle
    · rw [Nat.max_eq_right hle, Nat.one_mul]
      exact h.repeated
    · rwa [Nat.max_eq_left hle, Nat.mul_comm]

end Unfold

section Rotate

theorem cut_located (front back : Segment) (r : Run) :
    Checked.cut ((front ++ r :: back).map Run.stored) front.length =
      .ok (front.map Run.stored, (r :: back).map Run.stored) := by
  rw [List.map_append]
  exact Checked.cut_append (by simp)

theorem entry_located (front back : Segment) (r : Run) :
    Checked.entry ((front ++ r :: back).map Run.stored) front.length = .ok r.stored := by
  rw [List.map_append, List.map_cons]
  exact Checked.entry_append (by simp)

theorem turn_stored {front back : Segment} {r : Run} {offset : ℕ} (h : offset < r.count) :
    StoredList.turn (Segment.stored (front ++ r :: back)) front.length offset =
      .ok (Segment.stored (r.withCount (r.count - offset) :: back ++
        (front ++ Segment.head r offset))) := by
  have hextent : Segment.extent (r.withCount (r.count - offset) :: back ++
      (front ++ Segment.head r offset)) = Segment.extent (front ++ r :: back) := by
    simp only [Segment.extent_append, Segment.extent, Run.count_withCount, Segment.extent_head]
    omega
  simp only [StoredList.turn, cut_located, Checked.ok_bind, Segment.stored, ← hextent,
    List.map_cons, List.cons_append]
  by_cases h₀ : offset = 0
  · simp [Segment.head, h₀]
  · rw [if_pos (Nat.pos_of_ne_zero h₀)]
    simp [Checked.sub_eq h.le, Segment.head, h₀]

theorem pushTo_stored {s front back : Segment} {r : Run} {offset : ℕ}
    (h : w.Fits (Segment.extent s + Segment.extent front + offset)) :
    StoredList.pushTo w (Segment.stored s) ((front ++ r :: back).map Run.stored) front.length
        offset =
      .ok (Segment.stored (s ++ (front ++ Segment.head r offset))) := by
  rw [StoredList.pushTo, cut_located, Checked.ok_bind]
  dsimp only
  rw [Segment.pushAll_stored (h.mono (Nat.le_add_right _ _)), Checked.ok_bind, entry_located,
    Segment.head]
  by_cases h₀ : offset = 0
  · simp [h₀]
  · have hextent : Segment.extent (s ++ front) = Segment.extent s + Segment.extent front :=
      Segment.extent_append s front
    rw [if_pos (Nat.pos_of_ne_zero h₀), if_neg h₀, Checked.ok_bind, Run.stored_withCount,
      Segment.push_stored (by rwa [hextent]), List.append_assoc]

/-- A loop of several runs, rotated. -/
theorem rotateRuns_stored (h : l.Storable w) (hloop : 2 ≤ l.repeated.length)
    (hm : Segment.extent l.initial ≤ m) (hfits : w.Fits m) :
    l.stored.rotateRuns w m = .ok (l.rotate m).stored := by
  obtain ⟨initial, loop⟩ := l
  have hpositive : Segment.Positive loop := h.positive.2
  dsimp only at hloop hm
  have hpos : 0 < Segment.extent loop :=
    lt_of_lt_of_le (by omega) (Segment.length_le_extent hpositive)
  have hdiv := Nat.div_add_mod (m - Segment.extent initial) (Segment.extent loop)
  have hmod := Nat.mod_lt (m - Segment.extent initial) hpos
  -- the loop starts anew within the run `r`
  obtain ⟨front, r, back, offset, rfl, hstart, hoffset⟩ := Segment.exists_located hmod
  have hfront := (Segment.positive_append.mp hpositive).1
  have hrotate : (ArgList.rotate ⟨initial, front ++ r :: back⟩ m) =
      ⟨initial ++ (List.replicate ((m - Segment.extent initial) /
          Segment.extent (front ++ r :: back)) (front ++ r :: back)).flatten ++
          (front ++ Segment.head r offset),
        r.withCount (r.count - offset) :: back ++ (front ++ Segment.head r offset)⟩ := by
    rw [rotate]
    dsimp only
    split
    · next he => simp at he
    · next he => simp [he] at hloop
    · rw [hstart, Segment.takeArgs_located hfront hoffset, Segment.dropArgs_located hoffset]
  rw [hstart] at hdiv
  rw [hrotate]
  simp only [StoredList.rotateRuns, stored, Segment.length_stored, Segment.runs_stored,
    Checked.sub_eq hm, Checked.div_eq hpos, Checked.mod_eq hpos, Checked.ok_bind, hstart,
    Segment.locate_stored hoffset]
  generalize (m - Segment.extent initial) / Segment.extent (front ++ r :: back) = turns at hdiv ⊢
  have hturns : Segment.extent (initial ++ (List.replicate turns (front ++ r :: back)).flatten) +
      Segment.extent front + offset = m := by
    rw [Segment.extent_append, Segment.extent_power, Nat.mul_comm]
    omega
  rw [Segment.pushTurns_stored (hfits.mono ?_), Checked.ok_bind,
    pushTo_stored (hturns.symm ▸ hfits), Checked.ok_bind, Segment.length_stored,
    Checked.demand_eq ?_, Checked.ok_bind]
  · split_ifs with hzero
    · rw [turn_stored hoffset]
      rfl
    · obtain ⟨hfront₀, rfl⟩ : Segment.extent front = 0 ∧ offset = 0 := by omega
      obtain rfl := (Segment.extent_eq_zero hfront).mp hfront₀
      simp [Segment.head]
  · rw [Segment.extent_append _ (front ++ _), Segment.extent_append front, Segment.extent_head]
    omega
  · rw [Segment.extent_append, Segment.extent_power] at hturns
    omega

theorem rotate_extent (h : l.Positive) : l.rotate (Segment.extent l.initial) = l := by
  obtain ⟨initial, loop⟩ := l
  rw [rotate]
  dsimp only
  rw [Nat.sub_self]
  split
  · rfl
  · rfl
  · have htake : Segment.takeArgs 0 loop = [] := Segment.takeArgs_append Segment.positive_nil
    have hdrop : Segment.dropArgs 0 loop = loop := Segment.dropArgs_append [] h.2
    simp only [Nat.zero_div, Nat.zero_mod, List.replicate_zero, List.flatten_nil, List.append_nil,
      hdrop, htake]

theorem Storable.rotate (h : l.Storable w) (hfits : w.Fits m) : (l.rotate m).Storable w := by
  refine h.of_cellAt (h.positive.rotate m) (cellAt_rotate h.positive m) ?_ ?_
  · cases hfin : l.isFinite with
    | true =>
        rw [rotate_of_finite (isFinite_iff.mp hfin)]
        exact h.initial
    | false =>
        rw [extent_initial_rotate h.positive hfin]
        rcases Nat.le_total m (Segment.extent l.initial) with hle | hle
        · rw [Nat.max_eq_right hle]
          exact h.initial
        · rwa [Nat.max_eq_left hle]
  · rw [extent_repeated_rotate]
    exact h.repeated

theorem rotate_stored (h : l.Storable w) (hm : Segment.extent l.initial ≤ m) (hfits : w.Fits m) :
    l.stored.rotate w m = .ok (l.rotate m).stored := by
  rw [StoredList.rotate, initial_stored, Segment.length_stored, isFinite_stored]
  split_ifs with hstay hsingle
  · rcases hstay with rfl | hfin
    · rw [rotate_extent h.positive]
      rfl
    · rw [rotate_of_finite (isFinite_iff.mp hfin)]
      rfl
  · obtain ⟨hne, hfin⟩ := not_or.mp hstay
    obtain ⟨initial, loop⟩ := l
    obtain ⟨r, rfl⟩ : ∃ r, loop = [r] := List.length_eq_one_iff.mp (by simpa using hsingle)
    dsimp only at hm hne ⊢
    have hsum : Segment.extent initial + (r.withCount (m - Segment.extent initial)).count = m := by
      rw [Run.count_withCount]
      omega
    have hmissing : m - Segment.extent initial ≠ 0 := by omega
    rw [Checked.demand_eq (by omega), Checked.ok_bind, Checked.sub_eq hm, repeated_stored]
    simp only [Segment.runs_stored, List.map_cons, List.map_nil, Checked.entry_cons,
      Checked.ok_bind, Run.stored_withCount, Segment.push_stored (hsum.symm ▸ hfits), rotate,
      if_neg hmissing]
    rfl
  · obtain ⟨hne, hfin⟩ := not_or.mp hstay
    have hloop : 2 ≤ l.repeated.length := by
      have hnil := (isFinite_iff (l := l)).not.mp hfin
      have hpos := List.length_pos_iff.mpr hnil
      simp only [repeated_stored, Segment.runs_stored, List.length_map] at hsingle
      omega
    rw [Checked.demand_eq (by omega), Checked.ok_bind, rotateRuns_stored h hloop hm hfits,
      Checked.ok_bind, (h.rotate hfits).verify]
    rfl

end Rotate

section Split

theorem Reaches.isFinite_eq (hr : l.Reaches n) (hlt : Segment.extent l.initial < n) :
    l.isFinite = false := by
  rw [← Bool.not_eq_true]
  intro hfin
  have := hr hfin
  omega

theorem stretch_stored (h : l.Storable w) (hr : l.Reaches n) (hfits : w.Fits n) :
    l.stored.stretch w n = .ok (l.stretch n).stored := by
  rw [StoredList.stretch, stretch, initial_stored, Segment.length_stored, isFinite_stored]
  split_ifs with hlt
  · rw [Checked.demand_eq (hr.isFinite_eq hlt), Checked.ok_bind, rotate_stored h hlt.le hfits]
  · rfl

theorem Storable.stretch (h : l.Storable w) (hfits : w.Fits n) : (l.stretch n).Storable w := by
  rw [ArgList.stretch]
  split_ifs
  · exact h.rotate hfits
  · exact h

theorem cutRun_stored {front back : Segment} {r : Run} {offset : ℕ} (h₀ : 0 < offset)
    (hoffset : offset < r.count) (hfits : w.Fits (front.length + 1)) :
    StoredList.cutRun w (Segment.stored (front ++ r :: back)) front.length offset =
      .ok (front.length + 1, Segment.stored (front ++ Segment.head r offset ++
        r.withCount (r.count - offset) :: back)) := by
  have hextent : Segment.extent (front ++ Segment.head r offset ++
      r.withCount (r.count - offset) :: back) = Segment.extent (front ++ r :: back) := by
    simp only [Segment.extent_append, Segment.extent, Run.count_withCount, Segment.extent_head]
    omega
  have hreplace : ∀ x, Checked.replace ((front ++ r :: back).map Run.stored) front.length [x] =
      .ok (front.map Run.stored ++ [x] ++ back.map Run.stored) := by
    intro x
    rw [List.map_append, List.map_cons]
    exact Checked.replace_append (by simp) [x]
  have hinsert : ∀ x y : StoredRun, Checked.insert (front.map Run.stored ++ [x] ++
      back.map Run.stored) (front.length + 1) y =
        .ok (front.map Run.stored ++ [x] ++ y :: back.map Run.stored) :=
    fun x y => Checked.insert_append (by simp) y
  simp only [StoredList.cutRun, entry_located, Checked.ok_bind,
    Run.count_stored, Checked.sub_eq hoffset.le, Run.stored_withCount, hreplace, Word.add_eq hfits,
    hinsert, Checked.pure_eq, Segment.stored, hextent]
  simp [Segment.head, Nat.ne_of_gt h₀]

theorem split_stored (h : l.Storable w) (hr : l.Reaches n) (hfits : w.Fits n) :
    l.stored.split w n = .ok ((l.split n).runIndex n, (l.split n).stored) := by
  have hstretch := h.stretch hfits
  have hle := le_extent_stretch h.positive hr
  rw [StoredList.split, stretch_stored h hr hfits, Checked.ok_bind]
  have hsplit : l.split n = ⟨Segment.takeArgs n (l.stretch n).initial ++
      Segment.dropArgs n (l.stretch n).initial, (l.stretch n).repeated⟩ := rfl
  rw [hsplit, runIndex]
  generalize l.stretch n = k at hstretch hle ⊢
  obtain ⟨initial, loop⟩ := k
  have hpos : Segment.Positive initial := hstretch.positive.1
  have hinitial : w.Fits (Segment.extent initial) := hstretch.initial
  dsimp only at hle ⊢
  rcases Segment.cut_cases hpos hle with ⟨front, back, rfl, rfl⟩ |
    ⟨front, r, back, offset, rfl, rfl, h₀, hoffset⟩
  · obtain ⟨hfront, hback⟩ := Segment.positive_append.mp hpos
    rw [Segment.takeArgs_append hfront, Segment.dropArgs_append front hback,
      Segment.takeArgs_append hfront, initial_stored, Segment.runs_stored,
      Segment.locate_append hback]
    rfl
  · obtain ⟨hfront, -⟩ := Segment.positive_append.mp hpos
    rw [Segment.takeArgs_located hfront hoffset, Segment.dropArgs_located hoffset, initial_stored,
      Segment.runs_stored, Segment.locate_stored hoffset, Checked.ok_bind]
    dsimp only
    have hlength : front.length + 1 ≤ Segment.extent (front ++ r :: back) := by
      have := Segment.length_le_extent hpos
      rw [List.length_append, List.length_cons] at this
      omega
    have htake : Segment.takeArgs (Segment.extent front + offset) (front ++ Segment.head r offset ++
        r.withCount (r.count - offset) :: back) = front ++ Segment.head r offset := by
      have hextent : Segment.extent (front ++ Segment.head r offset) =
          Segment.extent front + offset := by rw [Segment.extent_append, Segment.extent_head]
      rw [← hextent]
      exact Segment.takeArgs_append
        (Segment.positive_append.mpr ⟨hfront, Segment.positive_head r offset⟩)
    rw [if_neg (Nat.ne_of_gt h₀), cutRun_stored h₀ hoffset (hinitial.mono hlength), Checked.ok_bind,
      htake]
    simp only [List.length_append, Segment.head, if_neg (Nat.ne_of_gt h₀)]
    rfl

theorem Storable.split (h : l.Storable w) (hfits : w.Fits n) : (l.split n).Storable w := by
  have hstretch := h.stretch hfits
  refine h.of_cellAt (h.positive.split n) (cellAt_split h.positive n) ?_ hstretch.repeated
  rw [← Segment.length_cells, cells_split, Segment.length_cells]
  exact hstretch.initial

end Split

section Unshare

theorem unshare_eq (l : ArgList) (n : ℕ) : l.unshare n =
    ⟨Segment.takeArgs n (l.stretch (n + 1)).initial ++
        Segment.takeArgs 1 (Segment.dropArgs n (l.stretch (n + 1)).initial) ++
        Segment.dropArgs 1 (Segment.dropArgs n (l.stretch (n + 1)).initial),
      (l.stretch (n + 1)).repeated⟩ := by
  unfold unshare stretch
  simp only [Nat.lt_succ_iff]

theorem stretchPast_stored (h : l.Storable w) (hr : l.Reaches (n + 1)) (hfits : w.Fits (n + 1)) :
    l.stored.stretchPast w n = .ok (l.stretch (n + 1)).stored := by
  rw [StoredList.stretchPast, stretch, initial_stored, Segment.length_stored, isFinite_stored]
  simp only [Nat.lt_succ_iff]
  split_ifs with hlt
  · rw [Checked.demand_eq (hr.isFinite_eq (Nat.lt_succ_of_le hlt)), Checked.ok_bind,
      Word.add_eq hfits, Checked.ok_bind, rotate_stored h (Nat.le_succ_of_le hlt) hfits]
  · rfl

theorem runAfter_stored {r : Run} {offset : ℕ} (h : offset < r.count) :
    StoredList.runAfter r.stored offset =
      .ok ((Segment.head r (r.count - offset - 1)).map Run.stored) := by
  rw [StoredList.runAfter, Run.count_stored, Checked.sub_eq h.le, Checked.ok_bind, Segment.head]
  by_cases hlast : 1 < r.count - offset
  · rw [if_pos hlast, Checked.sub_eq hlast.le, if_neg (by omega)]
    simp
  · rw [if_neg hlast, if_pos (by omega)]
    rfl

/-- An argument of a run gets a run of its own. -/
theorem isolateRun_stored {front back : Segment} {r : Run} {offset : ℕ} (hoffset : offset < r.count)
    (hfits : w.Fits (front.length + 1)) :
    StoredList.isolateRun w (Segment.stored (front ++ r :: back)) front.length offset =
      .ok ((front ++ Segment.head r offset).length,
        Segment.stored (front ++ Segment.head r offset ++
          r.withCount 1 :: (Segment.head r (r.count - offset - 1) ++ back))) := by
  have hextent : Segment.extent (front ++ Segment.head r offset ++
      r.withCount 1 :: (Segment.head r (r.count - offset - 1) ++ back)) =
        Segment.extent (front ++ r :: back) := by
    simp only [Segment.extent_append, Segment.extent, Run.count_withCount, Segment.extent_head]
    omega
  have hreplace : ∀ xs, Checked.replace ((front ++ r :: back).map Run.stored) front.length xs =
      .ok (front.map Run.stored ++ xs ++ back.map Run.stored) := by
    intro xs
    rw [List.map_append, List.map_cons]
    exact Checked.replace_append (by simp) xs
  rw [StoredList.isolateRun, Segment.runs_stored, entry_located, Checked.ok_bind, Run.count_stored]
  by_cases hone : 1 < r.count
  · rw [if_pos hone, runAfter_stored hoffset, Checked.ok_bind]
    simp only [hreplace, Checked.ok_bind, Word.add_eq hfits, Segment.stored, hextent]
    rcases Nat.eq_zero_or_pos offset with rfl | hpos
    · simp [Segment.head]
    · rw [if_pos hpos]
      simp [Segment.head, Nat.ne_of_gt hpos]
  · obtain ⟨rfl, hcount⟩ : offset = 0 ∧ r.count = 1 := by omega
    have hr : r.withCount 1 = r := by rw [← hcount, Run.withCount_self]
    rw [if_neg hone]
    simp [Segment.head, hcount, hr]

theorem takeArgs_one {r : Run} {s : Segment} (h : 0 < r.count) :
    Segment.takeArgs 1 (r :: s) = [r.withCount 1] := by
  rw [Segment.takeArgs, if_neg Nat.one_ne_zero]
  split_ifs with hone
  · rfl
  · have hcount : r.count = 1 := by omega
    rw [hcount, ← hcount, Run.withCount_self]
    cases s <;> simp [Segment.takeArgs, hcount]

theorem dropArgs_one {r : Run} {s : Segment} (h : 0 < r.count) (hs : Segment.Positive s) :
    Segment.dropArgs 1 (r :: s) = Segment.head r (r.count - 1) ++ s := by
  rw [Segment.dropArgs, Segment.head]
  split_ifs with hone hzero hzero
  · omega
  · rfl
  · have hcount : r.count = 1 := by omega
    rw [hcount]
    exact Segment.dropArgs_append [] hs
  · omega

theorem unshare_stored (h : l.Storable w) (hr : l.Reaches (n + 1)) (hfits : w.Fits (n + 1)) :
    l.stored.unshare w n = .ok ((l.unshare n).runIndex n, (l.unshare n).stored) := by
  have hstretch := h.stretch hfits
  have hlt := le_extent_stretch h.positive hr
  rw [StoredList.unshare, stretchPast_stored h hr hfits, Checked.ok_bind, unshare_eq, runIndex]
  generalize l.stretch (n + 1) = k at hstretch hlt ⊢
  obtain ⟨initial, loop⟩ := k
  have hpos : Segment.Positive initial := hstretch.positive.1
  have hinitial : w.Fits (Segment.extent initial) := hstretch.initial
  dsimp only at hlt ⊢
  obtain ⟨front, r, back, offset, rfl, rfl, hoffset⟩ := Segment.exists_located hlt
  obtain ⟨hfront, hrest⟩ := Segment.positive_append.mp hpos
  have hback := (Segment.positive_cons.mp hrest).2
  have hlength : front.length + 1 ≤ Segment.extent (front ++ r :: back) := by
    have := Segment.length_le_extent hpos
    rw [List.length_append, List.length_cons] at this
    omega
  have hleft : 0 < (r.withCount (r.count - offset)).count := Nat.sub_pos_of_lt hoffset
  rw [initial_stored, Segment.runs_stored, Segment.locate_stored hoffset, Checked.ok_bind]
  dsimp only
  rw [isolateRun_stored hoffset (hinitial.mono hlength), Checked.ok_bind,
    Segment.takeArgs_located hfront hoffset, Segment.dropArgs_located hoffset, takeArgs_one hleft,
    dropArgs_one hleft hback]
  have htake : Segment.takeArgs (Segment.extent front + offset) (front ++ Segment.head r offset ++
      [(r.withCount (r.count - offset)).withCount 1] ++
        (Segment.head (r.withCount (r.count - offset)) (r.count - offset - 1) ++ back)) =
      front ++ Segment.head r offset := by
    have hextent : Segment.extent (front ++ Segment.head r offset) =
        Segment.extent front + offset := by rw [Segment.extent_append, Segment.extent_head]
    rw [← hextent, List.append_assoc (front ++ Segment.head r offset)]
    exact Segment.takeArgs_append
      (Segment.positive_append.mpr ⟨hfront, Segment.positive_head r offset⟩)
  rw [Run.count_withCount, htake]
  simp only [List.append_assoc, List.singleton_append]
  rfl

theorem Storable.unshare (h : l.Storable w) (hfits : w.Fits (n + 1)) :
    (l.unshare n).Storable w := by
  have hstretch := h.stretch hfits
  refine h.of_cellAt (h.positive.unshare n) (cellAt_unshare h.positive n) ?_ ?_
  · rw [← Segment.length_cells, cells_unshare, Segment.length_cells]
    exact hstretch.initial
  · rw [repeated_unshare]
    exact hstretch.repeated

end Unshare

section Ending

theorem appendLoop_stored (h : w.Fits (Segment.extent l.initial + Segment.extent l.repeated)) :
    l.stored.appendLoop w = .ok l.appendLoop.stored := by
  rw [StoredList.appendLoop, initial_stored, repeated_stored, Segment.runs_stored,
    Segment.pushAll_stored h]
  rfl

theorem Storable.appendLoop (h : l.Storable w)
    (hfits : w.Fits (Segment.extent l.initial + Segment.extent l.repeated)) :
    l.appendLoop.Storable w := by
  refine storable_iff.mpr ⟨⟨Segment.positive_append.mpr h.positive, Segment.positive_nil⟩,
    ?_, hfits.mono (Nat.zero_le _), fun r hr => ?_⟩
  · rwa [ArgList.appendLoop, Segment.extent_append]
  · rw [runs, ArgList.appendLoop, List.append_nil] at hr
    exact h.shape hr

theorem dropTail_stored {s : Segment} (hs : Segment.Positive s) :
    StoredList.dropTail (Segment.extent s) (s.reverse.map Run.stored) =
      .ok ((finite s).backtrack.map fun l => Segment.stored l.initial) := by
  induction s using List.reverseRecOn with
  | nil => rfl
  | append_singleton s r ih =>
      obtain ⟨hs, hr⟩ := Segment.positive_append.mp hs
      have hr := (Segment.positive_cons.mp hr).1
      rw [backtrack_concat, List.reverse_append, List.reverse_singleton, List.singleton_append,
        List.map_cons, StoredList.dropTail, Run.presence_stored, Segment.extent_concat,
        Run.isRequired]
      cases r.presence with
      | required =>
          simp only [Run.count_stored, Checked.sub_eq (Nat.le_add_left _ _), Nat.add_sub_cancel,
            Checked.ok_bind, ih hs, decide_true, if_true]
      | optional =>
          have hextent : Segment.extent (s ++ Segment.butLast r) =
              Segment.extent s + r.count - 1 := by
            rw [Segment.extent_append, ← Segment.length_cells (Segment.butLast r)]
            have hlast := congrArg List.length (Segment.cells_butLast hr)
            simp only [List.length_append, List.length_singleton, List.length_replicate] at hlast
            omega
          have hsub : Checked.sub (Segment.extent s + r.count) 1 =
              .ok (Segment.extent s + r.count - 1) := Checked.sub_eq (by omega)
          simp only [hsub, Checked.ok_bind, Run.count_stored, reduceCtorEq, decide_false,
            Bool.false_eq_true, if_false, Option.map_some, finite, Segment.stored, hextent]
          rw [Segment.butLast]
          split_ifs with hone
          · simp [Checked.sub_eq hone.le]
          · simp

theorem finite_initial (h : l.isFinite = true) : finite l.initial = l := by
  obtain ⟨initial, loop⟩ := l
  obtain rfl : loop = [] := isFinite_iff.mp h
  rfl

theorem repeated_backtrack {s : Segment} (h : (finite s).backtrack = some l) :
    l.repeated = [] := by
  induction s using List.reverseRecOn with
  | nil => cases h
  | append_singleton s r ih =>
      rw [backtrack_concat] at h
      split_ifs at h
      · exact ih h
      · cases h
        rfl

theorem backtrack_stored (h : l.isFinite = true) (hl : l.Positive) :
    l.stored.backtrack = .ok (l.backtrack.map stored) := by
  have hinitial := finite_initial h
  rw [StoredList.backtrack, isFinite_stored, Checked.demand_eq h, Checked.ok_bind, initial_stored,
    Segment.length_stored, Segment.runs_stored, ← List.map_reverse, dropTail_stored hl.1,
    Checked.ok_bind, hinitial, Option.map_map, Checked.pure_eq]
  cases hb : l.backtrack with
  | none => rfl
  | some m =>
      have hloop := repeated_backtrack (hinitial.symm ▸ hb)
      simp only [Option.map_some, Function.comp_apply, stored, hloop, isFinite_iff.mp h]

theorem extent_backtrack {s : Segment} (h : (finite s).backtrack = some l) :
    Segment.extent l.initial ≤ Segment.extent s := by
  induction s using List.reverseRecOn with
  | nil => cases h
  | append_singleton s r ih =>
      rw [backtrack_concat] at h
      rw [Segment.extent_concat]
      split_ifs at h
      · exact (ih h).trans (Nat.le_add_right _ _)
      · cases h
        rw [finite, Segment.extent_append, Segment.butLast]
        split_ifs <;> simp [Segment.extent]

theorem shapes_backtrack {s : Segment} (h : (finite s).backtrack = some l) {r : Run}
    (hr : r ∈ l.initial) : ∃ q ∈ s, q.shape = r.shape := by
  induction s using List.reverseRecOn with
  | nil => cases h
  | append_singleton s q ih =>
      rw [backtrack_concat] at h
      split_ifs at h
      · obtain ⟨p, hp, hshape⟩ := ih h
        exact ⟨p, List.mem_append_left _ hp, hshape⟩
      · cases h
        rw [finite, List.mem_append, Segment.butLast] at hr
        rcases hr with hr | hr
        · exact ⟨r, List.mem_append_left _ hr, rfl⟩
        · refine ⟨q, List.mem_append_right _ List.mem_cons_self, ?_⟩
          split_ifs at hr
          · rw [List.mem_singleton] at hr
            rw [hr]
            rfl
          · cases hr

theorem Storable.backtrack (h : l.Storable w) (hfin : l.isFinite = true) {k : ArgList}
    (hk : l.backtrack = some k) : k.Storable w := by
  rw [← finite_initial hfin] at hk
  have hloop := repeated_backtrack hk
  refine storable_iff.mpr ⟨Positive.backtrack h.positive.1 hk,
    h.initial.mono (extent_backtrack hk), ?_, fun r hr => ?_⟩
  · rw [hloop]
    exact h.initial.mono (Nat.zero_le _)
  · rw [runs, hloop, List.append_nil] at hr
    obtain ⟨q, hq, hshape⟩ := shapes_backtrack hk hr
    rw [← hshape]
    exact h.shape (List.mem_append_left _ hq)

end Ending

end ArgList

end CatalogLint
