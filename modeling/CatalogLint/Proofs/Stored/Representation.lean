import CatalogLint.Proofs.Stored.Operation
import CatalogLint.Stored.Lookup

/-!
# Other representations of a stored list

Delaying a loop, writing it out several times, and giving arguments runs of their own leave a list
that says the same of every argument (`StoredList.surgery_represents`). The loop is found by the
stored numbers then, so these have to move along with the runs.
-/
namespace CatalogLint

/-- What a run says of each of its arguments. -/
def StoredRun.constraint (r : StoredRun) : Presence × StoredShape :=
  (r.presence, r.shape)

/-- A list that is verified, says the same of every argument, and ends at the same place. -/
structure StoredList.Represents (w : Word) (m l : StoredList) : Prop where
  verified : m.verify w = .ok ()
  arguments : ∀ n, ∃ q r, m.argAt n = .ok q ∧ l.argAt n = .ok r ∧
    q.map StoredRun.constraint = r.map StoredRun.constraint

namespace Segment
variable {s front back : Segment} {r : Run} {n offset : ℕ}

theorem at?_located (h : offset < r.count) :
    at? (front ++ r :: back) (extent front + offset) = some r := by
  induction front with
  | nil => rw [extent, Nat.zero_add, List.nil_append, at?, if_pos h]
  | cons q front ih =>
      rw [extent, List.cons_append, at?, if_neg (by omega), Nat.add_assoc, Nat.add_sub_cancel_left,
        ih]

theorem runAt_stored (h : n < extent s) :
    (stored s).runAt n = .ok ((at? s n).map Run.stored) := by
  obtain ⟨front, r, back, offset, rfl, rfl, hoffset⟩ := exists_located h
  rw [StoredSegment.runAt, runs_stored, locate_stored hoffset, Checked.ok_bind,
    at?_located hoffset]
  simp

end Segment

namespace ArgList
variable {w : Word} {l m : ArgList} {n : ℕ}

theorem argAt_stored (h : l.Positive) (n : ℕ) :
    l.stored.argAt n = .ok ((l.argAt n).map Run.stored) := by
  rw [StoredList.argAt, argAt, initial_stored, repeated_stored, isFinite_stored,
    Segment.length_stored, Segment.length_stored]
  split_ifs with hlt hfin
  · exact Segment.runAt_stored hlt
  · rfl
  · have hloop : 0 < Segment.extent l.repeated := by
      have := h.isFinite_eq.not.mp hfin
      omega
    rw [Checked.sub_eq (Nat.le_of_not_lt hlt), Checked.ok_bind, Checked.mod_eq hloop,
      Checked.ok_bind]
    exact Segment.runAt_stored (Nat.mod_lt _ hloop)

/-- What a list says by position is what its stored form says. -/
theorem Storable.represents (hm : m.Storable w) (hl : l.Positive) (h : m.cellAt = l.cellAt) :
    m.stored.Represents w l.stored := by
  refine ⟨hm.verify, fun n => ⟨_, _, argAt_stored hm.positive n, argAt_stored hl n, ?_⟩⟩
  have hstored : ∀ o : Option Run, (o.map Run.stored).map StoredRun.constraint =
      (o.map Run.cell).map fun c => (c.presence, c.shape.stored) := by
    intro o
    rw [Option.map_map, Option.map_map]
    congr 1
    funext r
    simp [StoredRun.constraint, Run.cell]
  have hn := congrFun h n
  rw [cellAt, cellAt] at hn
  rw [hstored, hstored, hn]

end ArgList

theorem Segment.eq_singleton {s : Segment} (hs : Positive s) (h : extent s = 1) :
    ∃ r, s = [r] ∧ r.count = 1 := by
  cases s with
  | nil => cases h
  | cons r s =>
      obtain ⟨hr, hs⟩ := positive_cons.mp hs
      rw [extent] at h
      have hrest : s = [] := (extent_eq_zero hs).mp (by omega)
      subst hrest
      exact ⟨r, rfl, by omega⟩

namespace ArgList
variable {l : ArgList} {n : ℕ} {front back : Segment}

theorem CutAt.runs_stored (h : CutAt n l front back) :
    l.stored.initial.runs = front.map Run.stored ++ back.map Run.stored := by
  rw [initial_stored, Segment.runs_stored, h.initial, List.map_append]

/-- The runs before the index where a list is cut cover the arguments before that position. -/
theorem CutAt.total_take (h : CutAt n l front back) :
    StoredRun.total (l.stored.initial.runs.take (l.runIndex n)) = n := by
  rw [h.runs_stored, h.runIndex, List.take_left' (List.length_map _), ← Segment.extent_eq_total,
    h.extent]

theorem CutAt.runIndex_le (h : CutAt n l front back) :
    l.runIndex n ≤ l.stored.initial.runs.length := by
  rw [h.runs_stored, h.runIndex, List.length_append, List.length_map]
  exact Nat.le_add_right _ _

theorem Isolated.cutAt {mid : Segment} (h : Isolated n n l front mid back) :
    CutAt n l front (mid ++ back) :=
  ⟨h.initial, h.extent, h.front, Segment.positive_append.mpr ⟨h.mid, h.back⟩⟩

/-- An argument with runs of its own has one run of its own. -/
theorem Isolated.exists_run {mid : Segment} (h : Isolated n n l front mid back) :
    ∃ r, l.stored.initial.runs[l.runIndex n]? = some r ∧ r.count = 1 := by
  have hmid : Segment.extent mid = 1 := Nat.add_left_cancel h.extent_add
  obtain ⟨r, rfl, hr⟩ := Segment.eq_singleton h.mid hmid
  refine ⟨r.stored, ?_, by rw [Run.count_stored, hr]⟩
  rw [h.cutAt.runs_stored, h.cutAt.runIndex]
  simp

end ArgList

namespace StoredList
variable {w : Word} {l : StoredList}

/-- Whatever numbers the word has room for, these operations leave a list that is verified and says
the same of every argument. A loop is delayed to the place that is asked for, and an index that is
returned is that of the run where the position is, of one argument if it is a run of its own. -/
theorem surgery_represents (h : l.verify w = .ok ()) :
    (∀ m, l.initial.length ≤ m → l.isFinite = false → w.Fits m →
      ∃ a, l.rotate w m = .ok a ∧ a.Represents w l ∧ a.initial.length = m) ∧
    (∀ k, w.Fits (l.repeated.length * k) → ∃ a, l.unfold w k = .ok a ∧ a.Represents w l) ∧
    (∀ n, l.Reaches n → w.Fits n →
      ∃ i a, l.split w n = .ok (i, a) ∧ a.Represents w l ∧
        i ≤ a.initial.runs.length ∧ StoredRun.total (a.initial.runs.take i) = n) ∧
    ∀ n, l.Reaches (n + 1) → w.Fits (n + 1) →
      ∃ i a, l.unshare w n = .ok (i, a) ∧ a.Represents w l ∧
        (∃ r, a.initial.runs[i]? = some r ∧ r.count = 1) ∧
        StoredRun.total (a.initial.runs.take i) = n := by
  obtain ⟨m, hm, rfl⟩ := verify_iff_storable.mp h
  have hpos := hm.positive
  refine ⟨fun k hle hloop hfits => ?_, fun k hfits => ?_, fun n hr hfits => ?_,
    fun n hr hfits => ?_⟩
  · rw [ArgList.isFinite_stored] at hloop
    refine ⟨_, ArgList.rotate_stored hm hle hfits, ?_, ?_⟩
    · exact (hm.rotate hfits).represents hpos (ArgList.cellAt_rotate hpos k)
    · rw [ArgList.initial_stored, Segment.length_stored, ArgList.extent_initial_rotate hpos hloop]
      exact Nat.max_eq_left hle
  · exact ⟨_, ArgList.unfold_stored hfits,
      (hm.unfold hfits).represents hpos (ArgList.cellAt_unfold m k)⟩
  · have hr := ArgList.reaches_stored.mp hr
    obtain ⟨front, back, hcut⟩ := ArgList.exists_cutAt_split hpos hr
    exact ⟨_, _, ArgList.split_stored hm hr hfits,
      (hm.split hfits).represents hpos (ArgList.cellAt_split hpos n), hcut.runIndex_le,
      hcut.total_take⟩
  · have hr := ArgList.reaches_stored.mp hr
    obtain ⟨front, mid, back, hisolated⟩ := ArgList.exists_isolated_unshare hpos hr
    exact ⟨_, _, ArgList.unshare_stored hm hr hfits,
      (hm.unshare hfits).represents hpos (ArgList.cellAt_unshare hpos n), hisolated.exists_run,
      hisolated.cutAt.total_take⟩

/-- A loop that is made to start inside one of its runs, after a turn and a half. -/
theorem surgery_represents_turns :
    let integers : StoredShape := ⟨.ofList [.integer], false, none⟩
    let strings : StoredShape := ⟨.ofList [.array], false, none⟩
    let l : StoredList := ⟨⟨[⟨1, .required, strings⟩], 1⟩,
      ⟨[⟨2, .required, integers⟩, ⟨1, .optional, strings⟩], 3⟩⟩
    l.verify .bits64 = .ok () ∧
      (∃ a, l.rotate .bits64 5 = .ok a ∧ a.Represents .bits64 l ∧ a.initial.length = 5 ∧
        a.repeated.runs.map StoredRun.count = [1, 1, 1]) ∧
      ∃ i a, l.unshare .bits64 5 = .ok (i, a) ∧ a.Represents .bits64 l ∧ i = 4 ∧
        StoredRun.total (a.initial.runs.take i) = 5 := by
  intro integers strings l
  have hl : l.verify .bits64 = .ok () := by decide +kernel
  obtain ⟨hrotate, -, -, hunshare⟩ := surgery_represents hl
  obtain ⟨a, ha, hrepresents, hlength⟩ := hrotate 5 (by decide) rfl (by decide)
  obtain ⟨i, b, hb, hrepresents', -, htotal⟩ := hunshare 5 nofun (by decide)
  have hcounts : (l.rotate .bits64 5).map (·.repeated.runs.map StoredRun.count) =
      .ok [1, 1, 1] := by decide +kernel
  have hindex : (l.unshare .bits64 5).map Prod.fst = .ok 4 := by decide +kernel
  rw [ha] at hcounts
  rw [hb] at hindex
  exact ⟨hl, ⟨a, ha, hrepresents, hlength, Except.ok.inj hcounts⟩, i, b, hb, hrepresents',
    Except.ok.inj hindex, htotal⟩

end StoredList

end CatalogLint
