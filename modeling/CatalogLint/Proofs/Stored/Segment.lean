import CatalogLint.Proofs.Stored.Embedding

/-!
# Stored segments

Every operation on a stored segment does what is expected of it to the segment, and the stored
number of arguments stays right. Where a position lies is said by the runs before it: the runs
`front`, and the first arguments of the next run.
-/
namespace CatalogLint.Segment
variable {w : Word} {s t front back : Segment} {r : Run} {n k offset : ℕ}

theorem extent_concat (s : Segment) (r : Run) : extent (s ++ [r]) = extent s + r.count := by
  rw [extent_append]
  rfl

theorem extent_power (s : Segment) (k : ℕ) :
    extent (List.replicate k s).flatten = k * extent s := by
  rw [← length_cells, cells_power, Sequence.length_power, length_cells]

section Pushing

theorem push_stored (h : w.Fits (extent s + r.count)) :
    (stored s).push w r.stored = .ok (stored (s ++ [r])) := by
  simp only [StoredSegment.push, Run.count_stored, Word.add_eq h, stored, extent_concat,
    List.map_append]
  rfl

theorem pushAll_stored (h : w.Fits (extent s + extent t)) :
    (stored s).pushAll w (t.map Run.stored) = .ok (stored (s ++ t)) := by
  induction t generalizing s with
  | nil =>
      rw [List.append_nil]
      rfl
  | cons r t ih =>
      rw [extent, ← Nat.add_assoc] at h
      rw [List.map_cons, StoredSegment.pushAll, push_stored (h.mono (Nat.le_add_right _ _)),
        Checked.ok_bind, ih (by rwa [extent_concat]), List.append_assoc]
      rfl

theorem pushTurns_stored (h : w.Fits (extent s + k * extent t)) :
    StoredSegment.pushTurns w (t.map Run.stored) k (stored s) =
      .ok (stored (s ++ (List.replicate k t).flatten)) := by
  induction k generalizing s with
  | zero =>
      rw [List.replicate_zero, List.flatten_nil, List.append_nil]
      rfl
  | succ k ih =>
      have hsum : extent s + (k + 1) * extent t = extent (s ++ t) + k * extent t := by
        rw [extent_append, Nat.succ_mul]
        omega
      rw [hsum] at h
      have hst : w.Fits (extent s + extent t) := by
        rw [extent_append] at h
        exact h.mono (Nat.le_add_right _ _)
      rw [StoredSegment.pushTurns, pushAll_stored hst, Checked.ok_bind, ih h, List.append_assoc,
        List.replicate_succ, List.flatten_cons]

end Pushing

section Removing

theorem pop_stored (s : Segment) (r : Run) :
    (stored (s ++ [r])).pop = .ok (some r.stored, stored s) := by
  simp only [StoredSegment.pop, runs_stored, length_stored, List.map_append, List.map_cons,
    List.map_nil, List.getLast?_concat, List.dropLast_concat, Run.count_stored, extent_concat,
    Checked.sub_eq (Nat.le_add_left r.count (extent s)), Nat.add_sub_cancel]
  rfl

theorem count_stored (h : w.Fits (n + extent s)) :
    StoredSegment.count w (s.map Run.stored) n = .ok (n + extent s) := by
  induction s generalizing n with
  | nil => rfl
  | cons r s ih =>
      rw [extent, ← Nat.add_assoc] at h ⊢
      rw [List.map_cons, StoredSegment.count, Run.count_stored,
        Word.add_eq (h.mono (Nat.le_add_right _ _)), Checked.ok_bind, ih h]

theorem truncate_stored (h : w.Fits (extent back)) :
    (stored (front ++ back)).truncate w front.length = .ok (stored front) := by
  cases back with
  | nil =>
      rw [List.append_nil, StoredSegment.truncate, if_neg (by simp)]
      rfl
  | cons r back =>
      have hdrop : ((front ++ r :: back).map Run.stored).drop front.length =
          (r :: back).map Run.stored := by simp
      have htake : ((front ++ r :: back).map Run.stored).take front.length =
          front.map Run.stored := by simp
      have hcount : StoredSegment.count w ((r :: back).map Run.stored) 0 =
          .ok (0 + extent (r :: back)) := count_stored (by rwa [Nat.zero_add])
      rw [StoredSegment.truncate, if_pos (by simp), runs_stored, hdrop, htake, hcount,
        Checked.ok_bind, length_stored, extent_append, Nat.zero_add,
        Checked.sub_eq (Nat.le_add_left _ _), Nat.add_sub_cancel]
      rfl

end Removing

section Locating

/-- Every position inside a segment lies in one of its runs. -/
theorem exists_located (h : n < extent s) : ∃ front r back offset,
    s = front ++ r :: back ∧ n = extent front + offset ∧ offset < r.count := by
  induction s generalizing n with
  | nil => cases h
  | cons q s ih =>
      rw [extent] at h
      by_cases hlt : n < q.count
      · exact ⟨[], q, s, n, rfl, (Nat.zero_add n).symm, hlt⟩
      · obtain ⟨front, r, back, offset, rfl, hn, hoffset⟩ := ih (n := n - q.count) (by omega)
        refine ⟨q :: front, r, back, offset, rfl, ?_, hoffset⟩
        rw [extent]
        omega

theorem locate_stored (h : offset < r.count) :
    StoredSegment.locate ((front ++ r :: back).map Run.stored) (extent front + offset) =
      .ok (front.length, offset) := by
  induction front with
  | nil => simp [StoredSegment.locate, extent, h]
  | cons q front ih =>
      have hsub : extent (q :: front) + offset - q.count = extent front + offset := by
        rw [extent]
        omega
      have hle : q.count ≤ extent (q :: front) + offset := by
        rw [extent]
        omega
      rw [List.cons_append, List.map_cons, StoredSegment.locate, Run.count_stored,
        if_neg (by omega), Checked.sub_eq hle, hsub, Checked.ok_bind, ih]
      rfl

/-- Where a run starts, or the segment ends. -/
theorem locate_append (hback : Positive back) :
    StoredSegment.locate ((front ++ back).map Run.stored) (extent front) =
      .ok (front.length, 0) := by
  cases back with
  | nil =>
      rw [List.append_nil]
      induction front with
      | nil => rfl
      | cons r front ih =>
          rw [List.map_cons, StoredSegment.locate, Run.count_stored, extent, if_neg (by omega),
            Checked.sub_eq (by omega), Nat.add_sub_cancel_left, Checked.ok_bind, ih]
          rfl
  | cons r back =>
      have hlocate : StoredSegment.locate ((front ++ r :: back).map Run.stored)
          (extent front + 0) = _ := locate_stored (positive_cons.mp hback).1
      exact hlocate

/-- The first arguments of a run. -/
def head (r : Run) (n : ℕ) : Segment :=
  if n = 0 then [] else [r.withCount n]

theorem extent_head (r : Run) (n : ℕ) : extent (head r n) = n := by
  rw [head]
  split_ifs with h
  · exact h.symm
  · rfl

theorem positive_head (r : Run) (n : ℕ) : Positive (head r n) := by
  rw [head]
  split_ifs with h
  · exact positive_nil
  · exact positive_cons.mpr ⟨Nat.pos_of_ne_zero h, positive_nil⟩

theorem takeArgs_located (hfront : Positive front) (h : offset < r.count) :
    takeArgs (extent front + offset) (front ++ r :: back) = front ++ head r offset := by
  induction front with
  | nil =>
      rw [extent, Nat.zero_add, List.nil_append, takeArgs, List.nil_append, head]
      split_ifs <;> rfl
  | cons q front ih =>
      obtain ⟨hq, hfront⟩ := positive_cons.mp hfront
      rw [extent, List.cons_append, takeArgs, if_neg (by omega), if_neg (by omega),
        List.cons_append,
        ← ih hfront]
      congr 2
      omega

theorem dropArgs_located (h : offset < r.count) :
    dropArgs (extent front + offset) (front ++ r :: back) =
      r.withCount (r.count - offset) :: back := by
  induction front with
  | nil => rw [extent, Nat.zero_add, List.nil_append, dropArgs, if_pos h]
  | cons q front ih =>
      rw [extent, List.cons_append, dropArgs, if_neg (by omega), ← ih]
      congr 1
      omega

theorem takeArgs_append (hfront : Positive front) :
    takeArgs (extent front) (front ++ back) = front := by
  induction front with
  | nil => cases back <;> rfl
  | cons r front ih =>
      obtain ⟨hr, hfront⟩ := positive_cons.mp hfront
      rw [extent, List.cons_append, takeArgs, if_neg (by omega), if_neg (by omega),
        Nat.add_sub_cancel_left, ih hfront]

theorem dropArgs_append (front : Segment) (hback : Positive back) :
    dropArgs (extent front) (front ++ back) = back := by
  induction front with
  | nil =>
      cases back with
      | nil => rfl
      | cons r back =>
          have hr := (positive_cons.mp hback).1
          rw [extent, List.nil_append, dropArgs, if_pos hr, Nat.sub_zero, Run.withCount_self]
  | cons r front ih =>
      rw [extent, List.cons_append, dropArgs, if_neg (by omega), Nat.add_sub_cancel_left, ih]

/-- A position up to the end of a segment is where a run starts or the segment ends, or it lies
inside a run. -/
theorem cut_cases (hs : Positive s) (h : n ≤ extent s) :
    (∃ front back, s = front ++ back ∧ n = extent front) ∨
      ∃ front r back offset, s = front ++ r :: back ∧ n = extent front + offset ∧
        0 < offset ∧ offset < r.count := by
  rcases h.lt_or_eq with hlt | rfl
  · obtain ⟨front, r, back, offset, rfl, rfl, hoffset⟩ := exists_located hlt
    rcases Nat.eq_zero_or_pos offset with rfl | hpos
    · exact .inl ⟨front, r :: back, rfl, rfl⟩
    · exact .inr ⟨front, r, back, offset, rfl, rfl, hpos, hoffset⟩
  · exact .inl ⟨s, [], (List.append_nil s).symm, rfl⟩

theorem length_le_extent (hs : Positive s) : s.length ≤ extent s := by
  induction s with
  | nil => exact Nat.le_refl 0
  | cons r s ih =>
      obtain ⟨hr, hs⟩ := positive_cons.mp hs
      have := ih hs
      rw [List.length_cons, extent]
      omega

end Locating

section Merging

/-- Merging from the left on merges the same runs. -/
theorem coalesce_cons_cons (q r : Run) (s : Segment) :
    coalesce (q :: r :: s) =
      if q.same r then coalesce (q.withCount (q.count + r.count) :: s)
      else q :: coalesce (r :: s) := by
  have hsame : ∀ p : Run, p.cell = r.cell → q.same p = q.same r := by
    intro p hp
    rw [Bool.eq_iff_iff, Run.same_iff, Run.same_iff, hp]
  rw [coalesce, coalesce, coalesce]
  cases coalesce s with
  | nil => rfl
  | cons p t =>
      dsimp only
      by_cases hrp : r.cell = p.cell
      · have hrp' : r.same p = true := (Run.same_iff r p).mpr hrp
        have hq := hsame (r.withCount (r.count + p.count)) rfl
        have hqp : (q.withCount (q.count + r.count)).same p = q.same r := hsame p hrp.symm
        simp only [hrp', hq, hqp, if_true]
        split_ifs <;> simp [Run.withCount, Nat.add_assoc]
      · have hrp' : r.same p = false := by
          rw [← Bool.not_eq_true, Run.same_iff]
          exact hrp
        simp only [hrp', Bool.false_eq_true, if_false]
        split_ifs with hqr hqp
        · rw [Run.same_iff] at hqr hqp
          exact absurd (hqr.symm.trans hqp) hrp
        · rfl
        · rfl

theorem mergeInto_stored (h : w.Fits (extent (r :: s))) :
    StoredSegment.mergeInto w r.stored (s.map Run.stored) =
      .ok ((coalesce (r :: s)).map Run.stored) := by
  induction s generalizing r with
  | nil => rfl
  | cons q s ih =>
      rw [extent, extent] at h
      rw [List.map_cons, StoredSegment.mergeInto, Run.same_stored, coalesce_cons_cons]
      split_ifs with hsame
      · have hcount : w.Fits (r.count + q.count) := h.mono (by omega)
        rw [Run.count_stored, Run.count_stored, Word.add_eq hcount, Checked.ok_bind,
          Run.stored_withCount, ih (by rwa [extent, Run.count_withCount, Nat.add_assoc])]
      · rw [ih (by rw [extent]; exact h.mono (by omega))]
        rfl

theorem extent_coalesce (s : Segment) : extent (coalesce s) = extent s := by
  rw [← length_cells, cells_coalesce, length_cells]

theorem coalesce_stored (h : w.Fits (extent s)) :
    (stored s).coalesce w = .ok (stored (coalesce s)) := by
  cases s with
  | nil => rfl
  | cons r s =>
      simp only [StoredSegment.coalesce, List.map_cons, mergeInto_stored h, stored, extent_coalesce]
      rfl

end Merging

end CatalogLint.Segment
