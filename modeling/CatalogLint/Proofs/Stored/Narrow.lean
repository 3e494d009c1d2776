import CatalogLint.Proofs.ArgList.NarrowIntersection
import CatalogLint.Proofs.Stored.Intersection

/-!
# Narrowing a stored list

Each narrowing of a stored list is the stored form of what it makes of the list, without a defect,
and the assertions on the way hold. Positions are found by the runs before them.
-/
namespace CatalogLint

theorem Shape.Storable.wellFormed {w : Word} {s : Shape} (h : s.Storable w) : s.WellFormed :=
  ⟨h.type, fun m hm => (h.elements m hm).wellFormed⟩

theorem Shape.Storable.mono {w v : Word} {s : Shape} (h : s.Storable v) (hcovers : w.Covers v) :
    s.Storable w :=
  ⟨h.type, fun m hm => (h.elements m hm).mono fun _ => hcovers.fits⟩

namespace Segment
variable {w v : Word} {s front mid back : Segment} {r : Run} {t u : Shape} {n index : ℕ}

section Requiring

theorem requireFirst_stored (back : Segment) (hfront : Positive front) :
    StoredRun.requireFirst (extent front) ((front ++ back).map Run.stored) =
      .ok ((front.map (fun r : Run => { r with presence := .required }) ++
        back).map Run.stored) := by
  induction front with
  | nil => cases back <;> rfl
  | cons r front ih =>
      obtain ⟨hr, hfront⟩ := positive_cons.mp hfront
      rw [List.cons_append, List.map_cons, StoredRun.requireFirst, if_neg (by rw [extent]; omega),
        Run.count_stored, Checked.sub_eq (by rw [extent]; omega), Checked.ok_bind, extent,
        Nat.add_sub_cancel_left, ih hfront]
      cases r
      rfl

theorem uncovered_stored (s : Segment) (n : ℕ) :
    StoredRun.uncovered (s.map Run.stored) n = .ok (uncovered s n) := by
  induction s generalizing n with
  | nil => rfl
  | cons r s ih =>
      rw [List.map_cons, StoredRun.uncovered, uncovered, Run.presence_stored, Run.count_stored,
        Run.isRequired]
      simp only [decide_eq_true_iff]
      split_ifs with hreq hle
      · rfl
      · rw [Checked.sub_eq (by omega), Checked.ok_bind, ih]
      · rfl

theorem uncovered_map_require (hfront : Positive front) (hback : Positive back) (hn : 0 < n)
    (h : n ≤ extent front) :
    uncovered (front.map (fun r : Run => { r with presence := .required }) ++ back) n = some 0 := by
  have hlength :
      n ≤ (cells (front.map fun r : Run => { r with presence := .required })).length := by
    rwa [length_cells, extent_map_require]
  have hall : ∀ c ∈ (cells (front.map (fun r : Run => { r with presence := .required }) ++
      back)).take n, c.presence = .required := by
    rw [cells_append, List.take_append_of_le_length hlength, cells_map_require]
    intro c hc
    obtain ⟨d, -, rfl⟩ := List.mem_map.mp (List.mem_of_mem_take hc)
    rfl
  rw [uncovered_eq (positive_append.mpr ⟨hfront.map_require, hback⟩) hn, if_pos hall,
    extent_append, extent_map_require, Nat.sub_eq_zero_of_le (h.trans (Nat.le_add_right _ _))]

end Requiring

section Narrowing

theorem meet_stored (hr : r.shape.Storable v) (ht : t.Storable v) (hcovers : w.Covers v) :
    r.stored.meet w ⟨1, .optional, t.stored⟩ =
      .ok (match r.shape.meet t with
        | none => .error (r.presence.combine .optional)
        | some u => .ok ⟨min r.count 1, r.presence.combine .optional, u.stored⟩) := by
  have hmeet : r.shape.stored.meetWith (StoredList.intersect w) t.stored =
      .ok ((r.shape.meetWith ArgList.intersect t).map Shape.stored) :=
    Shape.meetWith_stored fun l m hl hm =>
      ArgList.intersect_stored ((hr.mono hcovers).elements l hl) ((ht.mono hcovers).elements m hm)
        ((hr.elements l hl).fitTogether (ht.elements m hm) hcovers)
  rw [StoredRun.meet, StoredRun.meetWith, Run.shape_stored, hmeet, Checked.ok_bind,
    Shape.meet_eq hr.wellFormed ht.wellFormed, Run.presence_stored, Run.count_stored]
  cases r.shape.meetWith ArgList.intersect t with
  | none => rfl
  | some u => rfl

/-- The runs of a range are narrowed one after the other, up to one that cannot be. -/
theorem narrow_stored {last : Option ℕ} (hmid : Positive mid)
    (hshapes : ∀ r ∈ mid, r.shape.Storable v) (ht : t.Storable v) (hcovers : w.Covers v)
    (hlast : ∀ m ∈ last, n + extent mid = m + 1) (hrest : last = none → back = [])
    (hfits : w.Fits (n + extent mid)) (hindex : w.Fits (index + mid.length)) :
    StoredRun.narrow w ⟨1, .optional, t.stored⟩ last index n ((mid ++ back).map Run.stored) =
      .ok ⟨((restrict t mid).1 ++ (restrict t mid).2 ++ back).map Run.stored,
        n + extent (restrict t mid).1, !(restrict t mid).2.isEmpty⟩ := by
  induction mid generalizing n index with
  | nil =>
      cases last with
      | none =>
          rw [hrest rfl]
          rfl
      | some m =>
          have hn : n + 0 = m + 1 := hlast m rfl
          cases back with
          | nil =>
              simp only [restrict, List.append_nil, List.map_nil, StoredRun.narrow, Option.any_some]
              rw [if_neg (by simp; omega)]
              rfl
          | cons r back =>
              simp only [restrict, List.nil_append, List.map_cons, StoredRun.narrow,
                Option.any_some]
              rw [if_pos (by simp; omega)]
              rfl
  | cons r mid ih =>
      obtain ⟨hr, hmid⟩ := positive_cons.mp hmid
      obtain ⟨hshape, hshapes⟩ := List.forall_mem_cons.mp hshapes
      have hbefore : last.any (· < n) = false := by
        cases last with
        | none => rfl
        | some m =>
            have := hlast m rfl
            rw [extent] at this
            simp
            omega
      rw [List.cons_append, List.map_cons, StoredRun.narrow, hbefore, meet_stored hshape ht hcovers,
        restrict]
      cases hmeet : r.shape.meet t with
      | none => simp [extent]
      | some u =>
          have hcount : w.Fits (n + r.count) := by
            apply hfits.mono
            rw [extent]
            omega
          have hnext : w.Fits (index + 1) := by
            apply hindex.mono
            rw [List.length_cons]
            omega
          rw [extent, ← Nat.add_assoc] at hfits
          rw [List.length_cons, Nat.add_comm mid.length, ← Nat.add_assoc] at hindex
          have ih := ih hmid hshapes (fun m hm => by
            have := hlast m hm
            rw [extent] at this
            omega) hfits hindex
          simp only [Bool.false_eq_true, if_false, Checked.ok_bind, Run.count_stored,
            Word.add_eq hcount, Word.add_eq hnext, ih, extent, Nat.add_assoc]
          cases r
          rfl

theorem extent_restrict (hs : Positive s) (t : Shape) :
    extent ((restrict t s).1 ++ (restrict t s).2) = extent s := by
  obtain ⟨u, hu⟩ := restricted_restrict t hs
  have hsplit := congrArg List.length hu.split
  rw [length_cells, List.length_append, length_cells] at hsplit
  rw [extent_append, hu.extent, hsplit]

/-- What two shapes that can be stored meet in can be stored. -/
theorem storable_meet {s t u : Shape} (hs : s.Storable v) (ht : t.Storable v)
    (hcovers : w.Covers v) (h : s.meet t = some u) : u.Storable w := by
  rw [Shape.meet_eq hs.wellFormed ht.wellFormed] at h
  have hsw := hs.mono hcovers
  have htw := ht.mono hcovers
  refine hsw.meetWith htw (fun l m hl hm k hk => ?_) h
  have hfit := (hs.elements l hl).fitTogether (ht.elements m hm) hcovers
  exact (hsw.elements l hl).intersect (htw.elements m hm) hfit hk

theorem storable_restrict (hs : ∀ r ∈ s, r.shape.Storable v) (ht : t.Storable v)
    (hcovers : w.Covers v) : ∀ r ∈ (restrict t s).1 ++ (restrict t s).2, r.shape.Storable w := by
  induction s with
  | nil => nofun
  | cons r s ih =>
      obtain ⟨hr, hs⟩ := List.forall_mem_cons.mp hs
      rw [restrict]
      cases hmeet : r.shape.meet t with
      | none =>
          exact List.forall_mem_cons.mpr
            ⟨hr.mono hcovers, fun q hq => (hs q hq).mono hcovers⟩
      | some u => exact List.forall_mem_cons.mpr ⟨storable_meet hr ht hcovers hmeet, ih hs⟩

end Narrowing

end Segment

namespace ArgList
variable {w v : Word} {l : ArgList} {n first last : ℕ} {t : Shape}

/-- A list cut at a position: so many arguments are covered by the runs `front`. -/
structure CutAt (n : ℕ) (l : ArgList) (front back : Segment) : Prop where
  initial : l.initial = front ++ back
  extent : Segment.extent front = n
  front : Segment.Positive front
  back : Segment.Positive back

namespace CutAt
variable {front back : Segment}

theorem takeArgs (h : CutAt n l front back) : Segment.takeArgs n l.initial = front := by
  rw [h.initial, ← h.extent, Segment.takeArgs_append h.front]

theorem dropArgs (h : CutAt n l front back) : Segment.dropArgs n l.initial = back := by
  rw [h.initial, ← h.extent, Segment.dropArgs_append front h.back]

theorem runIndex (h : CutAt n l front back) : l.runIndex n = front.length := by
  rw [ArgList.runIndex, h.takeArgs]

end CutAt

theorem exists_cutAt_split (h : l.Positive) (hr : l.Reaches n) :
    ∃ front back, (l.split n).CutAt n front back := by
  have hs := h.stretch n
  have hlength := Segment.length_cells_takeArgs (le_extent_stretch h hr)
  rw [Segment.length_cells] at hlength
  exact ⟨_, _, rfl, hlength, hs.1.takeArgs n, hs.1.dropArgs n⟩

theorem reaches_of_not_ended
    (h : ¬(l.isFinite && decide (Segment.extent l.initial ≤ n)) = true) : l.Reaches (n + 1) := by
  intro hfin
  simp only [hfin, Bool.true_and, decide_eq_true_eq, not_le] at h
  exact h

section Ending

theorem Storable.endBefore {s : Segment} {p : Option Presence} (h : (finite s).Storable w) :
    ∀ m ∈ endBefore s p, m.Storable w := by
  intro m hm
  match p with
  | none | some .optional =>
      cases hm
      exact h
  | some .required => exact h.backtrack rfl hm

/-- The arguments before a cut. -/
theorem Storable.finite_front {front back : Segment} (h : l.Storable w)
    (hcut : l.CutAt n front back) : (finite front).Storable w := by
  refine storable_iff.mpr ⟨⟨hcut.front, Segment.positive_nil⟩, ?_, w.fits_zero, fun r hr => ?_⟩
  · have := h.initial
    rw [hcut.initial, Segment.extent_append] at this
    exact this.mono (Nat.le_add_right _ _)
  · apply h.shape
    rw [runs, hcut.initial]
    simp only [runs, finite, List.append_nil] at hr
    simp [hr]

theorem Storable.endAt (h : l.Storable w) (hfits : w.Fits n) :
    ∀ m ∈ l.endAt n, m.Storable w := by
  intro m hm
  rw [ArgList.endAt] at hm
  split_ifs at hm with hend
  · cases hm
    exact h
  · have hr : l.Reaches n := (reaches_of_not_ended hend).mono (Nat.le_succ n)
    obtain ⟨front, back, hcut⟩ := exists_cutAt_split h.positive hr
    dsimp only at hm
    rw [hcut.takeArgs] at hm
    exact ((h.split hfits).finite_front hcut).endBefore m hm

theorem endAt_stored (h : l.Storable w) (hfits : w.Fits n) :
    l.stored.endAt w n = .ok ((l.endAt n).map stored) := by
  rw [StoredList.endAt, h.verify, Checked.ok_bind, isFinite_stored, initial_stored,
    Segment.length_stored, ArgList.endAt]
  split_ifs with hend
  · rfl
  · have hr : l.Reaches n := (reaches_of_not_ended hend).mono (Nat.le_succ n)
    obtain ⟨front, back, hcut⟩ := exists_cutAt_split h.positive hr
    have hsplit := h.split hfits
    have hback : w.Fits (Segment.extent back) := by
      have := hsplit.initial
      rw [hcut.initial, Segment.extent_append] at this
      exact this.mono (Nat.le_add_left _ _)
    have hnext : ((((front ++ back).map Run.stored)[front.length]?).or
        ((l.split n).repeated.map Run.stored).head?).map StoredRun.presence =
          Segment.firstPresence (back ++ (l.split n).repeated) := by
      cases back <;> simp [Segment.firstPresence, Function.comp_def]
    rw [split_stored h hr hfits, Checked.ok_bind, hcut.runIndex]
    dsimp only
    rw [hcut.takeArgs, hcut.dropArgs, initial_stored, repeated_stored, hcut.initial,
      Segment.truncate_stored hback, Checked.ok_bind, Segment.runs_stored, Segment.runs_stored,
      hnext, endBefore_stored hcut.front]

end Ending

section Requiring

theorem stored_of_runs {s loop : Segment} {k : ℕ} (h : Segment.extent s = k) :
    (⟨⟨s.map Run.stored, k⟩, Segment.stored loop⟩ : StoredList) = stored ⟨s, loop⟩ := by
  rw [← h]
  rfl

theorem isRequired_stored (hfits : w.Fits (n + 1)) :
    l.stored.isRequired w n = .ok (l.isRequired n) := by
  simp only [StoredList.isRequired, Word.add_eq hfits, Checked.ok_bind, initial_stored,
    repeated_stored, Segment.runs_stored, Segment.uncovered_stored, isFinite_stored, isRequired]
  cases Segment.uncovered l.initial (n + 1) with
  | none => rfl
  | some k =>
      cases k with
      | zero => rfl
      | succ k => cases l.isFinite <;> rfl

/-- The arguments before a cut are required. -/
theorem Storable.map_require {front back : Segment} (h : l.Storable w)
    (hcut : l.CutAt n front back) :
    Storable w ⟨(front.map fun r : Run => { r with presence := .required }) ++ back,
      l.repeated⟩ := by
  refine storable_iff.mpr ⟨⟨Segment.positive_append.mpr ⟨hcut.front.map_require, hcut.back⟩,
    h.positive.2⟩, ?_, h.repeated, fun r hr => ?_⟩
  · rw [Segment.extent_append, Segment.extent_map_require, ← Segment.extent_append, ← hcut.initial]
    exact h.initial
  · simp only [runs, List.mem_append, List.mem_map] at hr
    have hrun : ∀ q ∈ front ++ back ++ l.repeated, q.shape.Storable w := by
      rw [← hcut.initial]
      exact fun q hq => h.shape hq
    rcases hr with (⟨q, hq, rfl⟩ | hr) | hr
    · exact hrun q (List.mem_append_left _ (List.mem_append_left _ hq))
    · exact hrun r (List.mem_append_left _ (List.mem_append_right _ hr))
    · exact hrun r (List.mem_append_right _ hr)

theorem require_eq_some {m : ArgList} (h : l.Positive) (hm : l.require n = some m) :
    l.Reaches (n + 1) ∧ ∃ front back, (l.split (n + 1)).CutAt (n + 1) front back ∧
      m = ⟨(front.map fun r : Run => { r with presence := .required }) ++ back,
        (l.split (n + 1)).repeated⟩ := by
  rw [ArgList.require] at hm
  split_ifs at hm with hend
  have hr := reaches_of_not_ended hend
  obtain ⟨front, back, hcut⟩ := exists_cutAt_split h hr
  dsimp only at hm
  rw [hcut.takeArgs, hcut.dropArgs, Option.some.injEq] at hm
  exact ⟨hr, front, back, hcut, hm.symm⟩

theorem Storable.require (h : l.Storable w) (hfits : w.Fits (n + 1)) :
    ∀ m ∈ l.require n, m.Storable w := by
  intro m hm
  obtain ⟨-, front, back, hcut, rfl⟩ := require_eq_some h.positive hm
  exact (h.split hfits).map_require hcut

/-- Whatever has been required is there. -/
theorem reaches_require {m : ArgList} (h : l.Positive) (hm : l.require n = some m) :
    m.Reaches (n + 1) := by
  obtain ⟨-, front, back, hcut, rfl⟩ := require_eq_some h hm
  intro _
  dsimp only
  rw [Segment.extent_append, Segment.extent_map_require, hcut.extent]
  exact Nat.le_add_right _ _

/-- To require arguments changes no shape. -/
theorem forall_shape_require {m : ArgList} {P : Shape → Prop} (h : l.Positive)
    (hm : l.require n = some m) (hP : ∀ r ∈ l.runs, P r.shape) : ∀ r ∈ m.runs, P r.shape := by
  obtain ⟨hr, -⟩ := require_eq_some h hm
  obtain ⟨m', hm', hpositive, hcells⟩ := require_eq h hr
  obtain rfl : m' = m := Option.some.inj (hm'.symm.trans hm)
  intro r hr
  obtain ⟨k, hk⟩ := exists_cellAt_of_mem_runs hpositive hr
  rw [hcells, Option.map_eq_some_iff] at hk
  obtain ⟨c, hc, hrequired⟩ := hk
  obtain ⟨q, hq, rfl⟩ := mem_runs_of_cellAt hc
  have hshape : q.shape = r.shape := by
    have := congrArg Cell.shape hrequired
    split_ifs at this <;> exact this
  exact hshape ▸ hP q hq

theorem require_stored (h : l.Storable w) (hfits : w.Fits (n + 1)) :
    l.stored.require w n = .ok ((l.require n).map stored) := by
  rw [StoredList.require, h.verify, Checked.ok_bind, isFinite_stored, initial_stored,
    Segment.length_stored, ArgList.require]
  split_ifs with hend
  · rfl
  · have hr := reaches_of_not_ended hend
    obtain ⟨front, back, hcut⟩ := exists_cutAt_split h.positive hr
    have hrequired := (h.split hfits).map_require hcut
    have hfirst := Segment.requireFirst_stored back hcut.front
    rw [hcut.extent] at hfirst
    rw [Word.add_eq hfits, Checked.ok_bind, split_stored h hr hfits, Checked.ok_bind]
    dsimp only
    rw [hcut.takeArgs, hcut.dropArgs]
    have hall := Segment.uncovered_map_require hcut.front hcut.back n.succ_pos hcut.extent.ge
    have hlength : Segment.extent ((front.map fun r : Run => { r with presence := .required }) ++
        back) = Segment.extent (front ++ back) := by
      rw [Segment.extent_append, Segment.extent_map_require, ← Segment.extent_append]
    generalize (front.map fun r : Run => { r with presence := .required }) ++ back = required
      at hrequired hfirst hall hlength ⊢
    have hasserted : isRequired ⟨required, (l.split (n + 1)).repeated⟩ n = true := by
      simp only [isRequired, hall]
    rw [initial_stored, Segment.runs_stored, hcut.initial, hfirst, Checked.ok_bind,
      Segment.length_stored, repeated_stored, stored_of_runs hlength, hrequired.verify,
      Checked.ok_bind, isRequired_stored hfits, hasserted, Checked.ok_bind, Checked.demand_eq rfl]
    rfl

end Requiring

section Isolating

theorem takeArgs_append_add {front : Segment} (hfront : Segment.Positive front) (k : ℕ)
    (s : Segment) : Segment.takeArgs (Segment.extent front + k) (front ++ s) =
      front ++ Segment.takeArgs k s := by
  induction front with
  | nil => rw [Segment.extent, Nat.zero_add, List.nil_append, List.nil_append]
  | cons r front ih =>
      obtain ⟨hr, hfront⟩ := Segment.positive_cons.mp hfront
      rw [Segment.extent, List.cons_append, Segment.takeArgs, if_neg (by omega),
        if_neg (by omega), Nat.add_assoc, Nat.add_sub_cancel_left, ih hfront, List.cons_append]

theorem dropArgs_append_add (front : Segment) (k : ℕ) (s : Segment) :
    Segment.dropArgs (Segment.extent front + k) (front ++ s) = Segment.dropArgs k s := by
  induction front with
  | nil => rw [Segment.extent, Nat.zero_add, List.nil_append]
  | cons r front ih =>
      rw [Segment.extent, List.cons_append, Segment.dropArgs, if_neg (by omega), Nat.add_assoc,
        Nat.add_sub_cancel_left, ih]

theorem exists_stretch_append (l : ArgList) (n : ℕ) :
    ∃ more, (l.stretch n).initial = l.initial ++ more := by
  obtain ⟨initial, loop⟩ := l
  have hself : ∃ more, initial = initial ++ more := ⟨[], (List.append_nil _).symm⟩
  rw [stretch]
  split_ifs
  · rw [rotate]
    dsimp only
    split
    · exact hself
    · split_ifs
      · exact hself
      · exact ⟨_, rfl⟩
    · exact ⟨_, List.append_assoc _ _ _⟩
  · exact hself

/-- A list in which a range of positions has runs of its own. -/
structure Isolated (first last : ℕ) (l : ArgList) (front mid back : Segment) : Prop where
  initial : l.initial = front ++ (mid ++ back)
  extent : Segment.extent front = first
  extent_add : first + Segment.extent mid = last + 1
  front : Segment.Positive front
  mid : Segment.Positive mid
  back : Segment.Positive back

theorem exists_isolated_unshare (h : l.Positive) (hr : l.Reaches (n + 1)) :
    ∃ front mid back, (l.unshare n).Isolated n n front mid back := by
  have hs := h.stretch (n + 1)
  have hlt := le_extent_stretch h hr
  have hfront := Segment.length_cells_takeArgs (Nat.le_of_succ_le hlt)
  have hmid : Segment.extent (Segment.takeArgs 1 (Segment.dropArgs n (l.stretch (n + 1)).initial)) =
      1 := by
    rw [← Segment.length_cells, Segment.cells_takeArgs, Segment.cells_dropArgs, List.length_take,
      List.length_drop, Segment.length_cells]
    omega
  rw [Segment.length_cells] at hfront
  refine ⟨_, _, _, ?_, hfront, by rw [hmid], hs.1.takeArgs n, (hs.1.dropArgs n).takeArgs 1,
    (hs.1.dropArgs n).dropArgs 1⟩
  rw [unshare_eq, List.append_assoc]

theorem exists_isolated_split (h : l.Positive) (hle : first ≤ last) (hr : l.Reaches (last + 1)) :
    ∃ front mid back, (l.split first).runIndex first = front.length ∧
      ((l.split first).split (last + 1)).Isolated first last front mid back := by
  have hs := (h.split first).stretch (last + 1)
  have hext := le_extent_stretch (h.split first) (hr.split h first)
  obtain ⟨front, rest, hcut⟩ := exists_cutAt_split h (hr.mono (Nat.le_succ_of_le hle))
  obtain ⟨more, hmore⟩ := exists_stretch_append (l.split first) (last + 1)
  have hinitial : ((l.split first).split (last + 1)).initial =
      Segment.takeArgs (last + 1) ((l.split first).stretch (last + 1)).initial ++
        Segment.dropArgs (last + 1) ((l.split first).stretch (last + 1)).initial := rfl
  have hsum : last + 1 = Segment.extent front + (last + 1 - first) := by
    rw [hcut.extent]
    omega
  rw [hmore, hcut.initial, List.append_assoc] at hext hinitial
  have hpos := hs.1
  rw [hmore, hcut.initial, List.append_assoc] at hpos
  obtain ⟨hfront, hrest⟩ := Segment.positive_append.mp hpos
  rw [hsum, takeArgs_append_add hfront, dropArgs_append_add, ← hsum, List.append_assoc] at hinitial
  rw [Segment.extent_append, hcut.extent] at hext
  have hmid := Segment.length_cells_takeArgs (n := last + 1 - first) (s := rest ++ more) (by omega)
  rw [Segment.length_cells] at hmid
  refine ⟨front, _, _, hcut.runIndex, hinitial, hcut.extent, ?_, hfront, hrest.takeArgs _,
    hrest.dropArgs _⟩
  rw [hmid]
  omega

/-- The runs of a range are made separate, and the first of them is found. -/
theorem isolate_stored (h : l.Storable w) (hle : first ≤ last) (hr : l.Reaches (last + 1))
    (hfits : w.Fits (last + 1)) : ∃ front mid back,
      (l.isolate first last).Isolated first last front mid back ∧
        l.stored.isolate w first last = .ok (front.length, (l.isolate first last).stored) := by
  rw [isolate, StoredList.isolate]
  split_ifs with heq
  · subst heq
    obtain ⟨front, mid, back, hisolated⟩ := exists_isolated_unshare h.positive hr
    refine ⟨front, mid, back, hisolated, ?_⟩
    rw [unshare_stored h hr hfits, runIndex, hisolated.initial]
    nth_rewrite 1 [← hisolated.extent]
    rw [Segment.takeArgs_append hisolated.front]
  · obtain ⟨front, mid, back, hindex, hisolated⟩ := exists_isolated_split h.positive hle hr
    have hfirst : w.Fits first := hfits.mono (Nat.le_succ_of_le hle)
    refine ⟨front, mid, back, hisolated, ?_⟩
    rw [split_stored h (hr.mono (Nat.le_succ_of_le hle)) hfirst, Checked.ok_bind, Word.add_eq hfits]
    dsimp only
    rw [Checked.ok_bind, split_stored (h.split hfirst) (hr.split h.positive first) hfits,
      Checked.ok_bind, hindex]
    rfl

theorem Storable.isolate (h : l.Storable w) (hle : first ≤ last) (hfits : w.Fits (last + 1)) :
    (l.isolate first last).Storable w := by
  rw [ArgList.isolate]
  split_ifs with heq
  · subst heq
    exact h.unshare hfits
  · exact (h.split (hfits.mono (Nat.le_succ_of_le hle))).split hfits

end Isolating

section Restricting
variable {front mid back : Segment}

theorem forall_shape_of_cellAt {m : ArgList} {P : Shape → Prop} (hm : m.Positive)
    (hcell : m.cellAt = l.cellAt) (h : ∀ r ∈ l.runs, P r.shape) : ∀ r ∈ m.runs, P r.shape := by
  intro r hr
  obtain ⟨k, hk⟩ := exists_cellAt_of_mem_runs hm hr
  rw [hcell] at hk
  obtain ⟨q, hq, hcell⟩ := mem_runs_of_cellAt hk
  have hshape : q.shape = r.shape := congrArg Cell.shape hcell
  exact hshape ▸ h q hq

/-- The list whose range has been narrowed, up to a run that cannot be. -/
def restricted (l : ArgList) (front mid back : Segment) (t : Shape) : ArgList :=
  ⟨front ++ ((Segment.restrict t mid).1 ++ (Segment.restrict t mid).2 ++ back), l.repeated⟩

theorem extent_restricted (hmid : Segment.Positive mid) (hl : l.initial = front ++ (mid ++ back))
    (t : Shape) : Segment.extent (l.restricted front mid back t).initial =
      Segment.extent l.initial := by
  rw [restricted, hl, Segment.extent_append, Segment.extent_append _ back,
    Segment.extent_restrict hmid, ← Segment.extent_append, ← Segment.extent_append]

theorem Storable.restricted (h : l.Storable w) (hshapes : ∀ r ∈ mid, r.shape.Storable v)
    (ht : t.Storable v) (hcovers : w.Covers v) (hl : l.initial = front ++ (mid ++ back)) :
    (l.restricted front mid back t).Storable w := by
  have hpos := h.positive.1
  rw [hl] at hpos
  obtain ⟨hfront, hrest⟩ := Segment.positive_append.mp hpos
  obtain ⟨hmid, hback⟩ := Segment.positive_append.mp hrest
  obtain ⟨u, hu⟩ := Segment.restricted_restrict t hmid
  refine storable_iff.mpr ⟨⟨Segment.positive_append.mpr ⟨hfront, Segment.positive_append.mpr
    ⟨Segment.positive_append.mpr hu.positive, hback⟩⟩, h.positive.2⟩, ?_, h.repeated,
      fun r hr => ?_⟩
  · rw [extent_restricted hmid hl]
    exact h.initial
  · have hrun : ∀ q ∈ front ++ (mid ++ back) ++ l.repeated, q.shape.Storable w := by
      rw [← hl]
      exact fun q hq => h.shape hq
    simp only [runs, ArgList.restricted, List.mem_append] at hr
    rcases hr with (hr | hr | hr) | hr
    · exact hrun r (by simp [hr])
    · exact Segment.storable_restrict hshapes ht hcovers r (List.mem_append.mpr hr)
    · exact hrun r (by simp [hr])
    · exact hrun r (by simp [hr])

theorem restricted_stored (hmid : Segment.Positive mid) (hl : l.initial = front ++ (mid ++ back))
    (t : Shape) : (⟨⟨front.map Run.stored ++ ((Segment.restrict t mid).1 ++
      (Segment.restrict t mid).2 ++ back).map Run.stored, Segment.extent l.initial⟩,
        Segment.stored l.repeated⟩ : StoredList) = (l.restricted front mid back t).stored := by
  rw [← List.map_append]
  exact stored_of_runs (extent_restricted hmid hl t)

theorem restrict_eq (hl : (l.isolate first last).Isolated first last front mid back) (t : Shape) :
    l.restrict first last t =
      if (Segment.restrict t mid).2.isEmpty then
        some ((l.isolate first last).restricted front mid back t)
      else ((l.isolate first last).restricted front mid back t).endAt
        (first + Segment.extent (Segment.restrict t mid).1) := by
  have hlength : last + 1 - first = Segment.extent mid := by
    have := hl.extent_add
    omega
  have hrest := Segment.positive_append.mpr ⟨hl.mid, hl.back⟩
  have htake : Segment.takeArgs first (front ++ (mid ++ back)) = front := by
    rw [← hl.extent, Segment.takeArgs_append hl.front]
  have hdrop : Segment.dropArgs first (front ++ (mid ++ back)) = mid ++ back := by
    rw [← hl.extent, Segment.dropArgs_append front hrest]
  have heq : l.restrict first last t = (l.isolate first last).restrictIsolated first last t := rfl
  rw [heq, restrictIsolated, hl.initial, htake, hdrop, hlength, Segment.takeArgs_append hl.mid,
    Segment.dropArgs_append mid hl.back]
  simp only [restricted, List.append_assoc]

/-- A list that has been narrowed ends where that has failed. -/
theorem narrowed_stored (h : l.Storable w) (hfits : w.Fits n) (narrowed : Bool) :
    (if !narrowed then l.stored.endAt w n
      else do
        l.stored.verify w
        return some l.stored) = .ok ((if narrowed then some l else l.endAt n).map stored) ∧
      ∀ m ∈ (if narrowed then some l else l.endAt n), m.Storable w := by
  cases narrowed with
  | true =>
      simp only [Bool.not_true, Bool.false_eq_true, if_false, if_true]
      rw [h.verify]
      exact ⟨rfl, fun m hm => Option.some.inj hm ▸ h⟩
  | false =>
      simp only [Bool.not_false, Bool.false_eq_true, if_false, if_true]
      exact ⟨endAt_stored h hfits, h.endAt hfits⟩

/-- A range is narrowed. -/
theorem restrict_stored (h : l.Storable w) (hshapes : ∀ r ∈ l.runs, r.shape.Storable v)
    (ht : t.Storable v) (hcovers : w.Covers v) (hle : first ≤ last) (hr : l.Reaches (last + 1))
    (hfits : w.Fits (last + 1)) :
    l.stored.restrict w first last t.stored = .ok ((l.restrict first last t).map stored) ∧
      ∀ m ∈ l.restrict first last t, m.Storable w := by
  obtain ⟨front, mid, back, hl, hstored⟩ := isolate_stored h hle hr hfits
  have hisolate := h.isolate hle hfits
  have hmid : ∀ r ∈ mid, r.shape.Storable v := by
    have hall := forall_shape_of_cellAt hisolate.positive (cellAt_isolate h.positive) hshapes
    rw [runs, hl.initial] at hall
    exact fun r hr => hall r (by simp [hr])
  have hrestricted := hisolate.restricted hmid ht hcovers hl.initial
  have hsum : w.Fits (first + Segment.extent mid) := hl.extent_add.symm ▸ hfits
  have hstop : w.Fits (first + Segment.extent (Segment.restrict t mid).1) := by
    have := Segment.extent_restrict hl.mid t
    rw [Segment.extent_append] at this
    exact hsum.mono (by omega)
  have hindex : w.Fits (front.length + mid.length) := by
    refine hsum.mono (Nat.add_le_add ?_ (Segment.length_le_extent hl.mid))
    exact hl.extent ▸ Segment.length_le_extent hl.front
  have hcut : Checked.cut ((l.isolate first last).initial.map Run.stored) front.length =
      .ok (front.map Run.stored, (mid ++ back).map Run.stored) := by
    rw [hl.initial, List.map_append]
    exact Checked.cut_append (by simp)
  have hnarrow : StoredRun.narrow w ⟨1, .optional, t.stored⟩ (some last) front.length first
      ((mid ++ back).map Run.stored) = _ :=
    Segment.narrow_stored hl.mid hmid ht hcovers (fun m hm => by cases hm; exact hl.extent_add)
      (by simp) hsum hindex
  rw [StoredList.restrict, Checked.demand_eq hle, Checked.ok_bind, hstored, Checked.ok_bind,
    restrict_eq hl]
  dsimp only
  rw [initial_stored, Segment.runs_stored, Segment.length_stored, repeated_stored, hcut,
    Checked.ok_bind]
  dsimp only
  rw [hnarrow, Checked.ok_bind]
  dsimp only
  rw [restricted_stored hl.mid hl.initial]
  exact narrowed_stored hrestricted hstop _

theorem requireShape_stored (h : l.Storable w) (hshapes : ∀ r ∈ l.runs, r.shape.Storable v)
    (ht : t.Storable v) (hcovers : w.Covers v) (hle : first ≤ last) (hfits : w.Fits (last + 1)) :
    l.stored.requireShape w first last t.stored = .ok ((l.requireShape first last t).map stored) ∧
      ∀ m ∈ l.requireShape first last t, m.Storable w := by
  have hcompound : t.stored.compound = t.stored.elements.isSome := by
    rw [Shape.compound_stored, Shape.elements_stored, Option.isSome_map, Shape.isSome_elements]
  rw [StoredList.requireShape, Checked.demand_eq hcompound, Checked.ok_bind,
    require_stored h hfits, Checked.ok_bind, ArgList.requireShape]
  cases hm : l.require last with
  | none => exact ⟨rfl, by simp⟩
  | some m =>
      exact restrict_stored (h.require hfits m hm) (forall_shape_require h.positive hm hshapes) ht
        hcovers hle (reaches_require h.positive hm) hfits

theorem extent_split_le (h : l.Positive) (n : ℕ) :
    Segment.extent (l.split n).initial ≤ max n (Segment.extent l.initial) := by
  rw [← Segment.length_cells, cells_split, Segment.length_cells, stretch]
  split_ifs
  · cases hfin : l.isFinite with
    | true =>
        rw [rotate_of_finite (isFinite_iff.mp hfin)]
        exact le_max_right _ _
    | false => rw [extent_initial_rotate h hfin]
  · exact le_max_right _ _

theorem extent_repeated_split (l : ArgList) (n : ℕ) :
    Segment.extent (l.split n).repeated = Segment.extent l.repeated := by
  rw [repeated_split, stretch]
  split_ifs
  · exact extent_repeated_rotate l n
  · rfl

/-- The loop is narrowed as well. -/
def restrictedLoop (l : ArgList) (t : Shape) : ArgList :=
  ⟨l.initial, (Segment.restrict t l.repeated).1 ++ (Segment.restrict t l.repeated).2⟩

theorem Storable.restrictedLoop (h : l.Storable w)
    (hshapes : ∀ r ∈ l.repeated, r.shape.Storable v) (ht : t.Storable v) (hcovers : w.Covers v) :
    (l.restrictedLoop t).Storable w := by
  obtain ⟨u, hu⟩ := Segment.restricted_restrict t h.positive.2
  refine storable_iff.mpr ⟨⟨h.positive.1, Segment.positive_append.mpr hu.positive⟩, h.initial, ?_,
    fun r hr => ?_⟩
  · rw [ArgList.restrictedLoop, Segment.extent_restrict h.positive.2]
    exact h.repeated
  · rcases List.mem_append.mp hr with hr | hr
    · exact h.shape (List.mem_append_left _ hr)
    · exact Segment.storable_restrict hshapes ht hcovers r hr

theorem restrictedLoop_stored (h : Segment.Positive l.repeated) (t : Shape) :
    (⟨l.stored.initial, ⟨((Segment.restrict t l.repeated).1 ++
      (Segment.restrict t l.repeated).2).map Run.stored, l.stored.repeated.length⟩⟩ : StoredList) =
        (l.restrictedLoop t).stored := by
  simp only [restrictedLoop, stored, Segment.stored, Segment.extent_restrict h]

theorem restrictFrom_eq {front rest : Segment} (hl : (l.split n).CutAt n front rest) (t : Shape) :
    l.restrictFrom n t =
      if (Segment.restrict t rest).2.isEmpty then
        if (Segment.restrict t (l.split n).repeated).2.isEmpty then
          some (((l.split n).restricted front rest [] t).restrictedLoop t)
        else (((l.split n).restricted front rest [] t).restrictedLoop t).endAt
          (n + Segment.extent (Segment.restrict t rest).1 +
            Segment.extent (Segment.restrict t (l.split n).repeated).1)
      else ((l.split n).restricted front rest [] t).endAt
        (n + Segment.extent (Segment.restrict t rest).1) := by
  have heq : l.restrictFrom n t = (l.split n).restrictRest n t := rfl
  rw [heq, restrictRest, hl.takeArgs, hl.dropArgs]
  simp only [restricted, restrictedLoop, List.append_nil]
  cases hfailed : (Segment.restrict t rest).2 with
  | nil =>
      simp only [List.isEmpty_nil, Bool.not_true, Bool.false_eq_true, if_false, if_true,
        List.append_nil, Segment.extent_append, hl.extent]
  | cons r failed =>
      simp only [List.isEmpty_cons, Bool.not_false, Bool.false_eq_true, if_false, if_true,
        List.append_assoc]

/-- The loop is narrowed, after the arguments before it. -/
theorem restrictLoop_stored (h : l.Storable w) (hshapes : ∀ r ∈ l.repeated, r.shape.Storable v)
    (ht : t.Storable v) (hcovers : w.Covers v)
    (hfits : w.Fits (n + Segment.extent l.repeated)) :
    (do
      let loop ← StoredRun.narrow w ⟨1, .optional, t.stored⟩ none 0 n l.stored.repeated.runs
      let m : StoredList := ⟨l.stored.initial, { l.stored.repeated with runs := loop.runs }⟩
      if loop.contradiction then m.endAt w loop.reached
      else do
        m.verify w
        return some m) =
      .ok ((if (Segment.restrict t l.repeated).2.isEmpty then some (l.restrictedLoop t)
        else (l.restrictedLoop t).endAt
          (n + Segment.extent (Segment.restrict t l.repeated).1)).map stored) ∧
      ∀ m ∈ (if (Segment.restrict t l.repeated).2.isEmpty then some (l.restrictedLoop t)
        else (l.restrictedLoop t).endAt
          (n + Segment.extent (Segment.restrict t l.repeated).1)), m.Storable w := by
  have hnarrow : StoredRun.narrow w ⟨1, .optional, t.stored⟩ none 0 n
      ((l.repeated ++ []).map Run.stored) = _ :=
    Segment.narrow_stored h.positive.2 hshapes ht hcovers (by simp) (fun _ => rfl) hfits (by
      rw [Nat.zero_add]
      exact h.repeated.mono (Segment.length_le_extent h.positive.2))
  have hstop := Segment.extent_restrict h.positive.2 t
  rw [Segment.extent_append] at hstop
  rw [List.append_nil, List.append_nil] at hnarrow
  rw [repeated_stored, Segment.runs_stored, hnarrow, Checked.ok_bind]
  dsimp only
  rw [← repeated_stored, restrictedLoop_stored h.positive.2 t]
  exact narrowed_stored (h.restrictedLoop hshapes ht hcovers) (hfits.mono (by omega)) _

/-- The arguments from a position on are narrowed, the loop included. -/
theorem restrictFrom_stored (h : l.Storable w) (hshapes : ∀ r ∈ l.runs, r.shape.Storable v)
    (ht : t.Storable v) (hcovers : w.Covers v) (hr : l.Reaches n)
    (hfits : w.Fits (max n (Segment.extent l.initial) + Segment.extent l.repeated)) :
    l.stored.restrictFrom w n t.stored = .ok ((l.restrictFrom n t).map stored) ∧
      ∀ m ∈ l.restrictFrom n t, m.Storable w := by
  obtain ⟨front, rest, hl⟩ := exists_cutAt_split h.positive hr
  have hn : w.Fits n := hfits.mono (Nat.le_add_right_of_le (le_max_left _ _))
  have hsplit := h.split hn
  have hall := forall_shape_of_cellAt hsplit.positive (cellAt_split h.positive n) hshapes
  have hrest : ∀ r ∈ rest, r.shape.Storable v := by
    rw [runs, hl.initial] at hall
    exact fun r hr => hall r (by simp [hr])
  have hinitial : (l.split n).initial = front ++ (rest ++ []) := by
    rw [hl.initial, List.append_nil]
  have hrestricted := hsplit.restricted hrest ht hcovers hinitial
  -- splitting may turn the loop, but not change the number of its arguments
  have htotal : n + Segment.extent rest + Segment.extent (l.split n).repeated ≤
      max n (Segment.extent l.initial) + Segment.extent l.repeated := by
    have := extent_split_le h.positive n
    rw [hl.initial, Segment.extent_append, hl.extent] at this
    rw [extent_repeated_split]
    omega
  have hdone := Segment.extent_restrict hl.back t
  rw [Segment.extent_append] at hdone
  have hcut : Checked.cut ((l.split n).initial.map Run.stored) front.length =
      .ok (front.map Run.stored, rest.map Run.stored) := by
    rw [hl.initial, List.map_append]
    exact Checked.cut_append (by simp)
  have hindex : w.Fits (front.length + rest.length) := by
    refine hfits.mono (le_trans (Nat.add_le_add ?_ (Segment.length_le_extent hl.back))
      (Nat.le_of_add_right_le htotal))
    exact hl.extent ▸ Segment.length_le_extent hl.front
  have hnarrow : StoredRun.narrow w ⟨1, .optional, t.stored⟩ none front.length n
      ((rest ++ []).map Run.stored) = _ :=
    Segment.narrow_stored hl.back hrest ht hcovers (by simp) (fun _ => rfl)
      (hfits.mono (by omega))
      hindex
  rw [List.append_nil] at hnarrow
  rw [StoredList.restrictFrom, split_stored h hr hn, Checked.ok_bind, restrictFrom_eq hl,
    hl.runIndex]
  dsimp only
  rw [initial_stored, Segment.runs_stored, Segment.length_stored, repeated_stored, hcut,
    Checked.ok_bind]
  dsimp only
  rw [hnarrow, Checked.ok_bind]
  dsimp only
  have hlist := restricted_stored hl.back hinitial t
  rw [hlist]
  cases hfailed : (Segment.restrict t rest).2.isEmpty with
  | false => exact narrowed_stored hrestricted (hfits.mono (by omega)) false
  | true =>
      have hloop := restrictLoop_stored hrestricted
        (fun r hr => hall r (List.mem_append_right _ hr)) ht hcovers
        (n := n + Segment.extent (Segment.restrict t rest).1) (hfits.mono (by
          have hrepeated : ((l.split n).restricted front rest [] t).repeated =
            (l.split n).repeated := rfl
          rw [hrepeated]
          omega))
      rw [← hlist] at hloop
      exact hloop

end Restricting

end ArgList

end CatalogLint
