import CatalogLint.Proofs.ArgList.ShortestLoop
import CatalogLint.Proofs.Stored.Surgery

/-!
# The shortest loop of a stored list

A stored loop is searched for a period by index, with the arguments of a last run that wraps around
added to those of the first run. That is a search in the circle of the loop, which `Around` says.
The number of arguments, divided by the number of turns, is that of the shortest loop.
-/
namespace CatalogLint

theorem Segment.count_le_extent {s : Segment} {r : Run} (h : r ∈ s) : r.count ≤ extent s := by
  obtain ⟨front, back, rfl⟩ := List.append_of_mem h
  rw [extent_append, extent]
  omega

namespace ArgList
variable {w : Word} {loop around : Segment} {extra m n i : ℕ}

/-- A loop and its circle: the circle is the loop up to a last run that wraps around, and its first
run has the `extra` arguments of that one. -/
structure Around (loop around : Segment) (extra : ℕ) : Prop where
  circle_eq : circle loop = around
  length_le : around.length ≤ loop.length
  length_lt : loop.length ≤ around.length + 1
  entry : ∀ i r, around[i]? = some r → ∃ q, loop[i]? = some q ∧ q.cell = r.cell ∧
    r.count = q.count + if i = 0 then extra else 0
  extent_take : ∀ m, 0 < m → m ≤ around.length → Segment.extent (around.take m) =
    Segment.extent (loop.take m ++ loop.drop around.length)

theorem around_self (h : circle loop = loop) : Around loop loop 0 := by
  refine ⟨h, Nat.le_refl _, Nat.le_succ _, fun i r hr => ⟨r, hr, rfl, ?_⟩, fun m _ _ => ?_⟩
  · rw [ite_self, Nat.add_zero]
  · rw [List.drop_length, List.append_nil]

theorem around_wrapped {a z : Run} {mid : Segment} (h : a.cell = z.cell) (hne : mid ≠ []) :
    Around (a :: (mid ++ [z])) (a.withCount (a.count + z.count) :: mid) z.count := by
  refine ⟨circle_of_wrapped h hne, by simp, by simp, fun i r hr => ?_, fun m hm hle => ?_⟩
  · cases i with
    | zero =>
        cases hr
        exact ⟨a, rfl, rfl, rfl⟩
    | succ i =>
        rw [List.getElem?_cons_succ] at hr ⊢
        have hi := (List.getElem?_eq_some_iff.mp hr).choose
        exact ⟨r, by rw [List.getElem?_append_left hi, hr], rfl, rfl⟩
  · obtain ⟨m, rfl⟩ := Nat.exists_eq_add_of_lt hm
    have hdrop : (a :: (mid ++ [z])).drop (mid.length + 1) = [z] := by simp
    rw [List.length_cons, Nat.zero_add] at hle
    rw [Nat.zero_add, List.length_cons, hdrop, List.take_succ_cons, List.take_succ_cons,
      List.take_append_of_le_length (Nat.le_of_succ_le_succ hle)]
    simp only [List.cons_append, Segment.extent, Run.count_withCount, Segment.extent_append]
    omega

theorem Around.extent_eq (h : Around loop around extra) (hne : 0 < around.length) :
    Segment.extent around = Segment.extent loop := by
  have := h.extent_take around.length hne (Nat.le_refl _)
  rwa [List.take_length, List.take_append_drop] at this

section Search

theorem recurs_stored (h : Around loop around extra) (hm : 0 < m) (hi : i + m < around.length)
    (hpos : Segment.Positive loop) (hfits : w.Fits (Segment.extent loop)) :
    StoredList.recurs w (loop.map Run.stored) extra m i =
      .ok (decide (around[i]? = around[i + m]?)) := by
  have hr : around[i]? = some around[i] := List.getElem?_eq_getElem (by omega)
  have hq : around[i + m]? = some around[i + m] := List.getElem?_eq_getElem hi
  obtain ⟨r, hrloop, hrcell, hrcount⟩ := h.entry i _ hr
  obtain ⟨q, hqloop, hqcell, hqcount⟩ := h.entry (i + m) _ hq
  rw [if_neg (by omega), Nat.add_zero] at hqcount
  have hindex : w.Fits (i + m) := by
    have hlength := Segment.length_le_extent hpos
    have hle := h.length_le
    exact hfits.mono (by omega)
  have hcount : w.Fits (r.count + if i = 0 then extra else 0) := by
    rw [← hrcount]
    apply hfits.mono
    rw [← h.extent_eq (by omega)]
    exact Segment.count_le_extent (List.getElem_mem _)
  have hentry : ∀ j p, loop[j]? = some p →
      Checked.entry (loop.map Run.stored) j = .ok p.stored := by
    intro j p hp
    exact Checked.entry_eq (by rw [List.getElem?_map, hp, Option.map_some])
  have hrecurs : (around[i].count = around[i + m].count ∧ r.same q = true) ↔
      around[i]? = around[i + m]? := by
    rw [Run.same_iff, hrcell, hqcell, hr, hq, Option.some.injEq]
    exact ⟨fun he => Run.ext_cell he.1 he.2, fun he => by rw [he]; exact ⟨rfl, rfl⟩⟩
  rw [StoredList.recurs, hentry i r hrloop, Checked.ok_bind, Word.add_eq hindex, Checked.ok_bind,
    hentry _ q hqloop, Checked.ok_bind, Run.count_stored, Word.add_eq hcount, Checked.ok_bind,
    Run.count_stored, Run.same_stored, Checked.pure_eq, ← hrcount, ← hqcount,
    decide_eq_decide.mpr hrecurs]

theorem recurAll_stored (h : Around loop around extra) (hm : 0 < m)
    (hpos : Segment.Positive loop) (hfits : w.Fits (Segment.extent loop)) {indices : List ℕ}
    (hi : ∀ i ∈ indices, i + m < around.length) :
    StoredList.recurAll w (loop.map Run.stored) extra m indices =
      .ok (indices.all fun i => around[i]? = around[i + m]?) := by
  induction indices with
  | nil => rfl
  | cons i indices ih =>
      obtain ⟨hi, hindices⟩ := List.forall_mem_cons.mp hi
      rw [StoredList.recurAll, recurs_stored h hm hi hpos hfits, Checked.ok_bind, List.all_cons]
      cases decide (around[i]? = around[i + m]?) with
      | false => rfl
      | true => exact ih hindices

/-- A list repeats its first entries when each of the others is the entry that far before it. -/
theorem isPeriodic_eq_all (s : Segment) (m : ℕ) :
    isPeriodic s m = (List.range (s.length - m)).all fun i => s[i]? = s[i + m]? := by
  rw [isPeriodic, Bool.eq_iff_iff, decide_eq_true_iff]
  simp only [List.all_eq_true, List.mem_range, decide_eq_true_iff]
  constructor
  · intro h i hi
    have := congrArg (·[i]?) h
    simpa [List.getElem?_take_of_lt hi, Nat.add_comm m] using this
  · intro h
    apply List.ext_getElem?
    intro i
    rw [List.getElem?_take, List.getElem?_drop, Nat.add_comm m]
    split_ifs with hi
    · exact h i hi
    · rw [List.getElem?_eq_none (by omega)]

theorem findPeriod_stored (h : Around loop around extra) (hpos : Segment.Positive loop)
    (hfits : w.Fits (Segment.extent loop)) {candidates : List ℕ}
    (hm : ∀ m ∈ candidates, 2 ≤ m ∧ m ≤ around.length) :
    StoredList.findPeriod w (loop.map Run.stored) extra around.length candidates =
      .ok (candidates.find? fun m =>
        2 ≤ m ∧ around.length % m = 0 ∧ isPeriodic around m) := by
  induction candidates with
  | nil => rfl
  | cons m candidates ih =>
      obtain ⟨⟨htwo, hle⟩, hcandidates⟩ := List.forall_mem_cons.mp hm
      have hindices : ∀ i ∈ List.range (around.length - m), i + m < around.length := by
        intro i hi
        rw [List.mem_range] at hi
        omega
      have hrecur := recurAll_stored h (by omega) hpos hfits hindices
      rw [← isPeriodic_eq_all] at hrecur
      rw [StoredList.findPeriod, Checked.mod_eq (by omega), Checked.ok_bind, List.find?_cons]
      by_cases hmod : around.length % m = 0
      · rw [if_pos hmod, Checked.sub_eq hle, Checked.ok_bind, hrecur, Checked.ok_bind]
        cases hper : isPeriodic around m with
        | true => simp [htwo, hmod]
        | false => simpa using ih hcandidates
      · rw [if_neg hmod, ih hcandidates]
        simp [hmod]

/-- Numbers below two are no candidates. -/
theorem period?_eq_find? (s : Segment) :
    period? s = ((List.range (s.length / 2 + 1)).drop 2).find? fun m =>
      2 ≤ m ∧ s.length % m = 0 ∧ isPeriodic s m := by
  have hsmall : ∀ m ∈ (List.range (s.length / 2 + 1)).take 2,
      ¬(2 ≤ m ∧ s.length % m = 0 ∧ isPeriodic s m = true) := by
    intro m hm
    rw [List.take_range, List.mem_range] at hm
    omega
  rw [period?]
  conv_lhs => rw [← List.take_append_drop 2 (List.range _)]
  rw [List.find?_append, List.find?_eq_none.mpr (by simpa using hsmall), Option.none_or]

end Search

section Shorten

theorem take_swap {runs : List StoredRun} {q : StoredRun} (hmn : m < n) (hq : runs[n]? = some q) :
    ∃ swapped, StoredList.swap runs m n = .ok swapped ∧
      swapped.take (m + 1) = runs.take m ++ [q] := by
  have hn := (List.getElem?_eq_some_iff.mp hq).choose
  have hr : runs[m]? = some runs[m] := List.getElem?_eq_getElem (by omega)
  have hlength : (runs.take m ++ [q] ++ runs.drop (m + 1)).length = runs.length := by
    simp only [List.length_append, List.length_take, List.length_singleton, List.length_drop]
    omega
  refine ⟨(runs.take m ++ [q] ++ runs.drop (m + 1)).take n ++ [runs[m]] ++
    (runs.take m ++ [q] ++ runs.drop (m + 1)).drop (n + 1), ?_, ?_⟩
  · rw [StoredList.swap, Checked.entry_eq hr, Checked.ok_bind, Checked.entry_eq hq, Checked.ok_bind,
      Checked.replace, if_pos (hmn.trans hn), Checked.ok_bind, Checked.replace,
      if_pos (hlength.symm ▸ hn)]
  · have hfirst : (runs.take m ++ [q]).length = m + 1 := by
      rw [List.length_append, List.length_take, List.length_singleton]
      omega
    rw [List.append_assoc _ [runs[m]], List.take_append_of_le_length, List.take_take,
      Nat.min_eq_left (Nat.succ_le_of_lt hmn), List.take_left' hfirst]
    rw [List.length_take, hlength]
    omega

/-- The extent of a loop is that of its circle, and all turns have the same extent. -/
theorem Around.extent_div (h : Around loop around extra) (hper : IsPeriod around m)
    (hlt : m < around.length) : Segment.extent loop / (around.length / m) =
      Segment.extent (loop.take m ++ loop.drop around.length) := by
  have hm : 0 < m := lt_of_lt_of_le Nat.two_pos hper.1
  have hturns : around.length = around.length / m * m :=
    (Nat.div_mul_cancel (Nat.dvd_of_mod_eq_zero hper.2.1)).symm
  have hpower := congrArg Segment.extent (eq_power_of_isPeriodic hper.2.2 hturns)
  rw [Segment.extent_power, h.extent_eq (by omega), h.extent_take m hm hlt.le] at hpower
  rw [hpower, Nat.mul_div_cancel_left _ (Nat.div_pos hlt.le hm)]

/-- What is left of a loop whose circle consists of turns of `m` runs. -/
theorem shortenTo_stored (h : Around loop around extra) (hper : IsPeriod around m)
    (hlt : m < around.length) (hpos : Segment.Positive loop)
    (hfits : w.Fits (Segment.extent loop)) :
    StoredList.shortenTo w (Segment.stored loop) around.length m =
      .ok (Segment.stored (loop.take m ++ loop.drop around.length)) := by
  have hm : 0 < m := lt_of_lt_of_le Nat.two_pos hper.1
  have hle := h.length_le
  have hlength := Segment.length_le_extent hpos
  have hkept : w.Fits (loop.length - around.length + m) := hfits.mono (by omega)
  simp only [StoredList.shortenTo, Segment.runs_stored, List.length_map, Segment.length_stored,
    Checked.sub_eq hle, Word.add_eq hkept, Checked.div_eq hm,
    Checked.div_eq (Nat.div_pos hlt.le hm), Checked.ok_bind, h.extent_div hper hlt]
  split_ifs with hwraps
  · have hwrapped : loop.length - around.length + m = m + 1 := by
      have := h.length_lt
      omega
    obtain ⟨z, hz⟩ : ∃ z, loop.drop around.length = [z] := by
      apply List.length_eq_one_iff.mp
      rw [List.length_drop]
      omega
    have hentry : (loop.map Run.stored)[around.length]? = some z.stored := by
      have := congrArg List.head? hz
      rw [List.head?_drop] at this
      rw [List.getElem?_map, this]
      rfl
    obtain ⟨swapped, hswap, htake⟩ := take_swap hlt hentry
    rw [hswap, Checked.ok_bind, hwrapped, htake, hz, Segment.stored, List.map_append, List.map_take]
    rfl
  · have hsame : loop.length = around.length := by omega
    rw [hsame, Nat.sub_self, Nat.zero_add, ← hsame, List.drop_length, List.append_nil,
      Segment.stored, List.map_take]
    rfl

theorem period?_lt {s : Segment} (h : period? s = some m) : m < s.length := by
  obtain ⟨⟨htwo, -⟩, -⟩ := period?_eq_some h
  have := List.mem_range.mp (List.mem_of_find?_eq_some h)
  omega

theorem shortenRuns_stored (h : Around loop around extra) (hpos : Segment.Positive loop)
    (hfits : w.Fits (Segment.extent loop)) {a z : Run} (ha : loop[0]? = some a)
    (hz : loop[loop.length - 1]? = some z) {wraps : Bool}
    (hwraps : decide (1 < loop.length ∧ a.same z = true) = wraps)
    (hn : (if wraps then loop.length - 1 else loop.length) = around.length)
    (hextra : (if wraps then z.count else 0) = extra) :
    StoredList.shortenRuns w (Segment.stored loop) =
      .ok (Segment.stored (loop.take (turnLength around) ++ loop.drop around.length)) := by
  have hlength : 0 < loop.length := (List.getElem?_eq_some_iff.mp ha).choose
  have hentry : ∀ j p, loop[j]? = some p →
      Checked.entry (loop.map Run.stored) j = .ok p.stored := by
    intro j p hp
    exact Checked.entry_eq (by rw [List.getElem?_map, hp, Option.map_some])
  have hcandidates : ∀ m ∈ (List.range (around.length / 2 + 1)).drop 2,
      2 ≤ m ∧ m ≤ around.length := by
    intro m hm
    obtain ⟨i, hi, rfl⟩ := List.mem_iff_getElem.mp hm
    simp only [List.length_drop, List.length_range] at hi
    simp only [List.getElem_drop, List.getElem_range]
    omega
  have hfind := findPeriod_stored h hpos hfits hcandidates
  rw [← period?_eq_find?] at hfind
  simp only [StoredList.shortenRuns, Segment.runs_stored, List.length_map,
    Checked.sub_eq (Nat.succ_le_of_lt hlength), Checked.ok_bind, hentry _ _ ha, hentry _ _ hz,
    Run.same_stored, Run.count_stored, hwraps, hn, hextra, Checked.div_eq Nat.two_pos, hfind]
  rw [turnLength]
  cases hp : period? around with
  | none =>
      dsimp only
      rw [Option.getD_none, List.take_append_drop]
      rfl
  | some m => exact shortenTo_stored h (period?_eq_some hp).1 (period?_lt hp) hpos hfits

/-- A merged loop that is not empty, as the search sees it. -/
theorem exists_around (hc : Segment.Coalesced loop) (hne : loop ≠ []) :
    ∃ around extra a z wraps, Around loop around extra ∧ loop[0]? = some a ∧
      loop[loop.length - 1]? = some z ∧ decide (1 < loop.length ∧ a.same z = true) = wraps ∧
      (if wraps then loop.length - 1 else loop.length) = around.length ∧
      (if wraps then z.count else 0) = extra := by
  rcases loop_cases hc with rfl | ⟨r, rfl⟩ | ⟨hcirc, hlen⟩ | ⟨a, mid, z, rfl, hmid, hcell⟩
  · exact absurd rfl hne
  · exact ⟨[r], 0, r, r, false, around_self rfl, rfl, rfl, by simp, rfl, rfl⟩
  · obtain ⟨a, ha⟩ : ∃ a, loop[0]? = some a := ⟨_, List.getElem?_eq_getElem (by omega)⟩
    obtain ⟨z, hz⟩ : ∃ z, loop[loop.length - 1]? = some z :=
      ⟨_, List.getElem?_eq_getElem (by omega)⟩
    refine ⟨loop, 0, a, z, false, around_self (circle_of_circular hcirc), ha, hz, ?_, rfl, rfl⟩
    have hends := hcirc.ends z (List.getLast?_eq_getElem? ▸ hz) a (List.head?_eq_getElem? ▸ ha)
    rw [decide_eq_false_iff_not, Run.same_iff]
    exact fun he => hends he.2.symm
  · have hpos := List.length_pos_iff.mpr hmid
    refine ⟨_, _, a, z, true, around_wrapped hcell hmid, rfl, ?_, ?_, by simp, rfl⟩
    · rw [← List.getLast?_eq_getElem?, ← List.cons_append, List.getLast?_concat]
    · rw [decide_eq_true_iff, Run.same_iff]
      exact ⟨by simp, hcell⟩

theorem shortestLoop_eq_match (hc : circle loop = around) :
    shortestLoop loop = match loop.take (turnLength around) ++ loop.drop around.length with
      | [r] => [r.withCount 1]
      | _ => loop.take (turnLength around) ++ loop.drop around.length := by
  rw [shortestLoop, hc, turnLength]
  cases period? around with
  | none =>
      rw [Option.getD_none, List.take_append_drop]
      rfl
  | some m => rfl

/-- The loop is replaced by the shortest one. -/
theorem shortenLoop_stored (hc : Segment.Coalesced loop) (hpos : Segment.Positive loop)
    (hfits : w.Fits (Segment.extent loop)) :
    StoredList.shortenLoop w (Segment.stored loop) = .ok (Segment.stored (shortestLoop loop)) := by
  by_cases hne : loop = []
  · subst hne
    rfl
  obtain ⟨around, extra, a, z, wraps, h, ha, hz, hwraps, hn, hextra⟩ := exists_around hc hne
  rw [shortestLoop_eq_match h.circle_eq, StoredList.shortenLoop, if_neg (by simpa using hne),
    shortenRuns_stored h hpos hfits ha hz hwraps hn hextra, Checked.ok_bind]
  generalize loop.take (turnLength around) ++ loop.drop around.length = short
  rw [Segment.runs_stored, List.length_map]
  split_ifs with hone
  · obtain ⟨r, rfl⟩ := List.length_eq_one_iff.mp hone
    simp [Segment.stored, Segment.extent]
  · split
    · next r => exact absurd rfl hone
    · rfl

theorem extent_shortestLoop (hc : Segment.Coalesced loop) (hpos : Segment.Positive loop) :
    Segment.extent (shortestLoop loop) ≤ Segment.extent loop := by
  by_cases hne : loop = []
  · subst hne
    exact Nat.le_refl _
  obtain ⟨around, extra, a, z, wraps, h, -⟩ := exists_around hc hne
  have hshort : Segment.extent (loop.take (turnLength around) ++ loop.drop around.length) ≤
      Segment.extent loop := by
    rw [turnLength]
    cases hp : period? around with
    | none => rw [Option.getD_none, List.take_append_drop]
    | some m =>
        rw [Option.getD_some, ← h.extent_div (period?_eq_some hp).1 (period?_lt hp)]
        exact Nat.div_le_self _ _
  have hshortpos : Segment.Positive (loop.take (turnLength around) ++ loop.drop around.length) :=
    Segment.positive_append.mpr ⟨fun r hr => hpos r (List.mem_of_mem_take hr),
      fun r hr => hpos r (List.mem_of_mem_drop hr)⟩
  rw [shortestLoop_eq_match h.circle_eq]
  split
  · next r he =>
    rw [he] at hshort hshortpos
    exact (Segment.positive_cons.mp hshortpos).1.trans_le hshort
  · exact hshort

end Shorten

end ArgList

end CatalogLint
