import Mathlib.Data.List.Nodup
import Mathlib.Data.List.Pairwise
import CatalogLint.Catalog.Reader

/-!
# Runs of lines

The runs that a reader finds are the maximal runs of lines that are not empty, where the lines are
the pieces of the data between line feeds (`Reader.runs_numbered`). The piece behind a last line
feed is no line to the reader; since it is empty, it would belong to no run.
-/
namespace CatalogLint

namespace Text

theorem byteLines_of_ne_nil {bs : List UInt8} (h : bs ≠ []) :
    byteLines bs = bs.takeWhile (· ≠ 10) ::
      byteLines (bs.drop ((bs.takeWhile (· ≠ 10)).length + 1)) := by
  induction bs with
  | nil => exact absurd rfl h
  | cons b bs ih =>
      by_cases hb : b = 10
      · simp [byteLines, hb]
      · rw [byteLines, if_neg hb, List.takeWhile_cons_of_pos (by simpa using hb)]
        cases bs with
        | nil => rfl
        | cons c cs => rw [ih (List.cons_ne_nil c cs)]; rfl

/-- Lines are the pieces between line feeds, without the last one where it is empty. -/
theorem splitOn_eq_or (bs : List UInt8) :
    bs.splitOn 10 = byteLines bs ∨ bs.splitOn 10 = byteLines bs ++ [[]] := by
  induction bs with
  | nil => exact .inr rfl
  | cons b bs ih =>
      rw [List.splitOn_cons_eq_if_modifyHead, byteLines]
      by_cases hb : b = 10
      · rw [if_pos (by simpa using hb), if_pos hb]
        exact ih.imp (congrArg ([] :: ·)) (congrArg ([] :: ·))
      · rw [if_neg (by simpa using hb), if_neg hb]
        cases hls : byteLines bs with
        | nil =>
            rw [hls] at ih
            exact .inl (by rw [ih.resolve_left (by simp)]; rfl)
        | cons l ls =>
            rw [hls] at ih
            exact ih.imp (congrArg (List.modifyHead (b :: ·))) (congrArg (List.modifyHead (b :: ·)))

end Text

namespace Reader

/-- Lines with their numbers, from `n` on. -/
def numberedFrom (n : ℕ) (lines : List (List UInt8)) : List (ℕ × List UInt8) :=
  (lines.zipIdx n).map Prod.swap

/-- The maximal runs of lines that are not empty, with the numbers of the lines in the data. -/
def maximalRuns (data : List UInt8) : List (List (ℕ × List UInt8)) :=
  ((numberedFrom 1 (data.splitOn 10)).splitOnP (·.2.isEmpty)).filter (!·.isEmpty)

theorem numbered_eq (data : List UInt8) : numbered data = numberedFrom 1 (Text.byteLines data) := by
  rw [numbered, numberedFrom, List.zipIdx_succ, List.map_map]
  rfl

variable {n : ℕ} {l : List UInt8} (ls : List (ℕ × List UInt8))

theorem runs_of_isEmpty (h : l.isEmpty) : runs ((n, l) :: ls) = runs ls := by
  cases ls with
  | nil => simpa [runs] using h
  | cons => rw [runs, if_pos h]

/-- A run goes up to the next empty line. -/
theorem runs_of_not_isEmpty (h : ¬l.isEmpty) : runs ((n, l) :: ls) =
    ((n, l) :: ls.takeWhile (!·.2.isEmpty)) :: runs (ls.dropWhile (!·.2.isEmpty)) := by
  induction ls generalizing n l with
  | nil => rw [runs, if_neg h]; rfl
  | cons next ls ih =>
      obtain ⟨m, next⟩ := next
      rw [runs, if_neg h]
      by_cases hnext : next.isEmpty
      · simp [hnext]
      · simp [hnext, ih hnext]

/-- The first piece that is not empty goes up to the next separator. -/
theorem filter_splitOnP_cons {α : Type} {p : α → Bool} {x : α} (h : p x = false) (xs : List α) :
    ((x :: xs).splitOnP p).filter (!·.isEmpty) = (x :: xs.takeWhile (!p ·)) ::
      ((xs.dropWhile (!p ·)).splitOnP p).filter (!·.isEmpty) := by
  have hpiece : ∀ y ∈ x :: xs.takeWhile (!p ·), p y = false := by
    rw [List.forall_mem_cons]
    exact ⟨h, fun y hy => by simpa using List.all_eq_true.mp List.all_takeWhile y hy⟩
  have hcons : x :: xs = (x :: xs.takeWhile (!p ·)) ++ xs.dropWhile (!p ·) := by
    rw [List.cons_append, List.takeWhile_append_dropWhile]
  rw [hcons]
  cases hrest : xs.dropWhile (!p ·) with
  | nil =>
      rw [List.append_nil, List.splitOnP_eq_singleton hpiece]
      rfl
  | cons y ys =>
      have hy : p y := by
        simpa [hrest] using List.head_dropWhile_not (!p ·) (l := xs) (by simp [hrest])
      rw [List.splitOnP_append_cons_of_forall_mem hpiece y hy,
        List.splitOnP_cons_eq_if_modifyHead, if_pos hy]
      rfl

theorem runs_eq (ls : List (ℕ × List UInt8)) :
    runs ls = (ls.splitOnP (·.2.isEmpty)).filter (!·.isEmpty) := by
  -- A whole run is taken at a time, so the recursion is on the length.
  match ls with
  | [] => rfl
  | (n, l) :: ls =>
      by_cases hl : l.isEmpty
      · rw [runs_of_isEmpty ls hl, List.splitOnP_cons_eq_if_modifyHead, if_pos hl,
          List.filter_cons_of_neg (by simp), runs_eq ls]
      · rw [runs_of_not_isEmpty ls hl, filter_splitOnP_cons (by simpa using hl), runs_eq]
  termination_by ls.length
  decreasing_by
    · exact Nat.lt_succ_self _
    · exact Nat.lt_succ_of_le (List.dropWhile_suffix _).length_le

/-- An empty line at the end belongs to no run. -/
theorem runs_concat (n : ℕ) : runs (ls ++ [(n, [])]) = runs ls := by
  rw [runs_eq, runs_eq, List.splitOnP_append_cons ls [] rfl, List.filter_append]
  simp

theorem runs_numbered (data : List UInt8) : runs (numbered data) = maximalRuns data := by
  rw [numbered_eq, maximalRuns, ← runs_eq]
  rcases Text.splitOn_eq_or data with h | h
  · rw [h]
  · rw [h, numberedFrom, numberedFrom, List.zipIdx_append, List.map_append]
    exact (runs_concat ..).symm

theorem flatten_runs_sublist (ls : List (ℕ × List UInt8)) : (runs ls).flatten.Sublist ls := by
  match ls with
  | [] => exact .refl _
  | (n, l) :: ls =>
      by_cases hl : l.isEmpty
      · rw [runs_of_isEmpty ls hl]
        exact (flatten_runs_sublist ls).cons _
      · have hrest := flatten_runs_sublist (ls.dropWhile (!·.2.isEmpty))
        have hall := (List.Sublist.refl (ls.takeWhile (!·.2.isEmpty))).append hrest
        rw [List.takeWhile_append_dropWhile] at hall
        rw [runs_of_not_isEmpty ls hl, List.flatten_cons, List.cons_append]
        exact hall.cons_cons _
  termination_by ls.length
  decreasing_by
    · exact Nat.lt_succ_self _
    · exact Nat.lt_succ_of_le (List.dropWhile_suffix _).length_le

/-- No number is given to two lines. -/
theorem nodup_fst_numberedFrom (n : ℕ) (lines : List (List UInt8)) :
    ((numberedFrom n lines).map Prod.fst).Nodup := by
  have hfst : (numberedFrom n lines).map Prod.fst = List.range' n lines.length := by
    rw [numberedFrom, List.map_map, ← List.zipIdx_map_snd]
    rfl
  rw [hfst]
  exact List.nodup_range'

/-- A line belongs to one run only. -/
theorem eq_of_mem_line {data : List UInt8} {run run' : List (ℕ × List UInt8)}
    (hrun : run ∈ maximalRuns data) (hrun' : run' ∈ maximalRuns data)
    (hn : n ∈ run.map Prod.fst) (hn' : n ∈ run'.map Prod.fst) : run = run' := by
  rw [← runs_numbered, numbered_eq] at hrun hrun'
  have hnodup := ((flatten_runs_sublist _).map Prod.fst).nodup
    (nodup_fst_numberedFrom 1 (Text.byteLines data))
  rw [List.map_flatten, List.nodup_flatten, List.pairwise_map] at hnodup
  have : Std.Symm fun run run' : List (ℕ × List UInt8) =>
    (run.map Prod.fst).Disjoint (run'.map Prod.fst) := ⟨fun _ _ h _ hn hn' => h hn' hn⟩
  by_contra hne
  exact hnodup.2.forall hrun hrun' hne hn hn'

end Reader

end CatalogLint
