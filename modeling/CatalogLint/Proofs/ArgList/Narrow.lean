import CatalogLint.ArgList.Narrow
import CatalogLint.Proofs.ArgList.Ending

/-!
# Narrowing, cell by cell

Each narrowing changes the cells of a range of places, and no others: to require arguments changes
their presence, to restrict them changes their shape. A restriction that meets an argument which
cannot have the shape ends the list there (`restrict_cases`, `restrictFrom_cases`).
-/
namespace CatalogLint
open Sequence

theorem Sequence.lasso_map_middle {α : Type} (g : α → α) (u v w x : List α) (n : ℕ) :
    lasso (u ++ (v.map g ++ w)) x n =
      (lasso (u ++ (v ++ w)) x n).map
        (if u.length ≤ n ∧ n < u.length + v.length then g else id) := by
  simp only [lasso_append, List.length_map]
  by_cases hu : n < u.length
  · rw [if_pos hu, if_pos hu, if_neg (by omega), Option.map_id, id]
  · rw [if_neg hu, if_neg hu]
    by_cases hv : n - u.length < v.length
    · rw [if_pos hv, if_pos hv, if_pos (by omega), List.getElem?_map]
    · rw [if_neg hv, if_neg hv, if_neg (by omega), Option.map_id, id]

theorem Sequence.lasso_map_loop {α : Type} (g : α → α) (u v x : List α) (n : ℕ) :
    lasso (u ++ v.map g) (x.map g) n =
      (lasso (u ++ v) x n).map (if u.length ≤ n then g else id) := by
  simp only [lasso_append]
  by_cases hu : n < u.length
  · rw [if_pos hu, if_pos hu, if_neg (by omega), Option.map_id, id]
  · rw [if_neg hu, if_neg hu, if_pos (by omega)]
    simp only [lasso, turn, List.length_map]
    split_ifs <;> rw [List.getElem?_map]

def Cell.require (c : Cell) : Cell :=
  ⟨.required, c.shape⟩

/-- The cell under a further shape. -/
def Cell.narrow (t : Shape) (c : Cell) : Cell :=
  ⟨c.presence, (c.shape.meet t).getD .nothing⟩

namespace Segment

theorem cells_map_require (s : Segment) :
    cells (s.map ({ · with presence := .required })) = (cells s).map Cell.require := by
  induction s with
  | nil => rfl
  | cons r s ih =>
      rw [List.map_cons, cells_cons, ih, cells_cons, List.map_append, List.map_replicate]
      rfl

theorem extent_map_require (s : Segment) :
    extent (s.map ({ · with presence := .required })) = extent s := by
  rw [← length_cells, cells_map_require, List.length_map, length_cells]

theorem Positive.map_require {s : Segment} (h : Positive s) :
    Positive (s.map ({ · with presence := .required })) := by
  intro r hr
  obtain ⟨q, hq, rfl⟩ := List.mem_map.mp hr
  exact h q hq

/-- The first cells have been narrowed; the next one, if there is one, cannot be. -/
structure Restricted (t : Shape) (s done failed : Segment) (u : List Cell) : Prop where
  positive : Positive done ∧ Positive failed
  split : cells s = u ++ cells failed
  cells : cells done = u.map (Cell.narrow t)
  met : ∀ c ∈ u, c.shape.meet t ≠ none
  stop : ∀ r ∈ failed.head?, r.shape.meet t = none

theorem restricted_restrict (t : Shape) {s : Segment} (hs : Positive s) :
    ∃ u, Restricted t s (restrict t s).1 (restrict t s).2 u := by
  induction s with
  | nil => exact ⟨[], ⟨positive_nil, positive_nil⟩, rfl, rfl, nofun, nofun⟩
  | cons r s ih =>
      rw [restrict]
      cases hmeet : r.shape.meet t with
      | none =>
          refine ⟨[], ⟨positive_nil, hs⟩, rfl, rfl, nofun, fun q hq => ?_⟩
          cases hq
          exact hmeet
      | some m =>
          obtain ⟨hr, hs⟩ := positive_cons.mp hs
          obtain ⟨u, positive, split, cells, met, stop⟩ := ih hs
          refine ⟨List.replicate r.count r.cell ++ u, ⟨positive_cons.mpr ⟨hr, positive.1⟩,
            positive.2⟩, ?_, ?_, fun c hc => ?_, stop⟩
          · rw [cells_cons, split, List.append_assoc]
          · rw [cells_cons, cells, List.map_append, List.map_replicate]
            simp only [Cell.narrow, Run.cell, hmeet, Option.getD_some]
          · rcases List.mem_append.mp hc with hc | hc
            · rw [List.eq_of_mem_replicate hc]
              simp [Run.cell, hmeet]
            · exact met c hc

theorem Restricted.extent {t : Shape} {s done failed : Segment} {u : List Cell}
    (h : Restricted t s done failed u) : Segment.extent done = u.length := by
  rw [← length_cells, h.cells, List.length_map]

end Segment

namespace ArgList
variable {l : ArgList} {n : ℕ}

theorem cellAt_eq (l : ArgList) (n : ℕ) :
    l.cellAt = lasso ((Segment.cells l.initial).take n ++ (Segment.cells l.initial).drop n)
      (Segment.cells l.repeated) := by
  rw [List.take_append_drop, cellAt_eq_lasso]

/-- To require the arguments at all places up to `n`. -/
theorem require_eq (h : l.Positive) (hn : l.Reaches (n + 1)) :
    ∃ m, l.require n = some m ∧ m.Positive ∧
      ∀ k, m.cellAt k = (l.cellAt k).map (if k ≤ n then Cell.require else id) := by
  unfold require
  rw [if_neg]
  · have hs := h.split (n + 1)
    refine ⟨_, rfl, ⟨Segment.positive_append.mpr ⟨(hs.1.takeArgs _).map_require,
      hs.1.dropArgs _⟩, hs.2⟩, fun k => ?_⟩
    have hlen : ((Segment.cells (l.split (n + 1)).initial).take (n + 1)).length = n + 1 := by
      have := le_extent_split h hn
      simpa using this
    have := lasso_map_middle Cell.require []
      ((Segment.cells (l.split (n + 1)).initial).take (n + 1))
      ((Segment.cells (l.split (n + 1)).initial).drop (n + 1))
      (Segment.cells (l.split (n + 1)).repeated) k
    rw [← cellAt_split h (n + 1), cellAt_eq _ (n + 1), cellAt_eq_lasso]
    simpa [Segment.cells_append, Segment.cells_map_require, Segment.cells_takeArgs,
      Segment.cells_dropArgs, hlen, Nat.lt_succ_iff] using this
  · simp only [Bool.and_eq_true, decide_eq_true_eq, not_and, not_le]
    exact fun hfin => hn hfin

/-- Some places have been given a further shape, which the arguments there can have. -/
structure Narrowed (t : Shape) (p : ℕ → Prop) [DecidablePred p] (l m : ArgList) : Prop where
  positive : m.Positive
  cells : ∀ k, m.cellAt k = (l.cellAt k).map (if p k then Cell.narrow t else id)
  met : ∀ k c, p k → l.cellAt k = some c → c.shape.meet t ≠ none

/-- The places from `n` on have been given a further shape up to `stop`, where the argument cannot
have it. -/
structure Stopped (t : Shape) (n stop : ℕ) (l m : ArgList) : Prop where
  positive : m.Positive
  le : n ≤ stop
  cells : ∀ k ≤ stop,
    m.cellAt k = (l.cellAt k).map (if n ≤ k ∧ k < stop then Cell.narrow t else id)
  met : ∀ k c, n ≤ k → k < stop → l.cellAt k = some c → c.shape.meet t ≠ none
  contradiction : ∃ c, l.cellAt stop = some c ∧ c.shape.meet t = none

/-- The runs of the places from `first` to `last` made separate. -/
def isolate (l : ArgList) (first last : ℕ) : ArgList :=
  if first = last then l.unshare first else (l.split first).split (last + 1)

section Isolate
variable {first last : ℕ}

theorem cellAt_isolate (h : l.Positive) : (l.isolate first last).cellAt = l.cellAt := by
  unfold isolate
  split_ifs
  · exact cellAt_unshare h first
  · rw [cellAt_split (h.split first), cellAt_split h]

theorem Positive.isolate (h : l.Positive) : (l.isolate first last).Positive := by
  unfold ArgList.isolate
  split_ifs
  · exact h.unshare first
  · exact (h.split first).split (last + 1)

theorem lt_extent_isolate (h : l.Positive) (hr : l.Reaches (last + 1)) :
    last < Segment.extent (l.isolate first last).initial := by
  unfold isolate
  split_ifs with heq
  · subst heq
    exact lt_extent_unshare h hr
  · exact le_extent_split (h.split first) (hr.split h first)

end Isolate

/-- Narrowing part of the initial segment. -/
theorem restricted_initial {l m : ArgList} {t : Shape} {s done failed : Segment} {u b w : List Cell}
    (hs : Segment.Restricted t s done failed u) (hm : m.repeated = l.repeated)
    (hl : Segment.cells l.initial = b ++ (Segment.cells s ++ w))
    (hcells : Segment.cells m.initial = b ++ (Segment.cells done ++ (Segment.cells failed ++ w))) :
    (∀ k, m.cellAt k = (l.cellAt k).map
      (if b.length ≤ k ∧ k < b.length + u.length then Cell.narrow t else id)) ∧
    (∀ k c, b.length ≤ k → k < b.length + u.length → l.cellAt k = some c →
      c.shape.meet t ≠ none) ∧
    ∀ r ∈ failed.head?, l.cellAt (b.length + u.length) = some r.cell := by
  rw [hs.split, List.append_assoc] at hl
  rw [hs.cells] at hcells
  rw [cellAt_eq_lasso m, cellAt_eq_lasso l, hm, hl, hcells]
  refine ⟨fun k => lasso_map_middle _ _ _ _ _ _, fun k c hb hk hc => ?_, fun r hr => ?_⟩
  · rw [lasso_append, if_neg (by omega), lasso_append, if_pos (by omega)] at hc
    exact hs.met c (List.mem_of_getElem? hc)
  · obtain ⟨f, rfl⟩ := List.head?_eq_some_iff.mp hr
    rw [Segment.cells_cons_pos f (Segment.positive_cons.mp hs.positive.2).1, lasso_append,
      if_neg (by omega), lasso_append, if_neg (by omega)]
    simp [lasso]

/-- What `restrict` does once the places have runs of their own. -/
def restrictIsolated (l : ArgList) (first last : ℕ) (t : Shape) : Option ArgList :=
  let before := Segment.takeArgs first l.initial
  let rest := Segment.dropArgs first l.initial
  let (done, failed) := Segment.restrict t (Segment.takeArgs (last + 1 - first) rest)
  let after := Segment.dropArgs (last + 1 - first) rest
  let l := { l with initial := before ++ done ++ failed ++ after }
  if failed.isEmpty then some l else l.endAt (first + Segment.extent done)

theorem restrictIsolated_cases (h : l.Positive) {first last : ℕ} (hle : first ≤ last)
    (hext : last < Segment.extent l.initial) (t : Shape) :
    (∃ m, l.restrictIsolated first last t = some m ∧
      Narrowed t (fun k => first ≤ k ∧ k ≤ last) l m) ∨
    ∃ m stop, l.restrictIsolated first last t = m.endAt stop ∧ stop ≤ last ∧
      Stopped t first stop l m := by
  have hs := (h.1.dropArgs first).takeArgs (last + 1 - first)
  have ha := (h.1.dropArgs first).dropArgs (last + 1 - first)
  have hb := h.1.takeArgs first
  obtain ⟨u, hu⟩ := Segment.restricted_restrict t hs
  unfold restrictIsolated
  dsimp only
  generalize Segment.restrict t (Segment.takeArgs (last + 1 - first)
    (Segment.dropArgs first l.initial)) = result at hu ⊢
  obtain ⟨done, failed⟩ := result
  dsimp only at hu ⊢
  set m : ArgList := ⟨Segment.takeArgs first l.initial ++ done ++ failed ++
    Segment.dropArgs (last + 1 - first) (Segment.dropArgs first l.initial), l.repeated⟩ with hm
  have hpos : m.Positive := by
    refine ⟨?_, h.2⟩
    simp only [hm, Segment.positive_append]
    exact ⟨⟨⟨hb, hu.positive.1⟩, hu.positive.2⟩, ha⟩
  have hblen : (Segment.cells (Segment.takeArgs first l.initial)).length = first :=
    Segment.length_cells_takeArgs (hle.trans hext.le)
  have hulen := congrArg List.length hu.split
  rw [Segment.cells_takeArgs, Segment.cells_dropArgs, List.length_take, List.length_drop,
    List.length_append, Segment.length_cells, Segment.length_cells] at hulen
  obtain ⟨hcells, hmet, hstop⟩ := restricted_initial (l := l) (m := m) hu rfl
    (b := Segment.cells (Segment.takeArgs first l.initial))
    (w := Segment.cells (Segment.dropArgs (last + 1 - first) (Segment.dropArgs first l.initial)))
    (by simp only [Segment.cells_takeArgs_append])
    (by simp only [hm, Segment.cells_append, List.append_assoc])
  simp only [hblen] at hcells hmet hstop
  cases failed with
  | nil =>
      have hlen : first + u.length = last + 1 := by
        simp only [Segment.extent] at hulen
        omega
      left
      refine ⟨m, rfl, hpos, fun k => ?_, fun k c hk => hmet k c hk.1 (by omega)⟩
      rw [hcells k, hlen]
      simp only [Nat.lt_succ_iff]
  | cons r failed =>
      have hr := (Segment.positive_cons.mp hu.positive.2).1
      have hle : first + u.length ≤ last := by
        simp only [Segment.extent] at hulen
        omega
      right
      refine ⟨m, first + u.length, ?_, hle, hpos, Nat.le_add_right _ _, fun k _ => hcells k, hmet,
        r.cell, hstop r rfl, hu.stop r rfl⟩
      rw [hu.extent]
      rfl

theorem Narrowed.of_cellAt {t : Shape} {p : ℕ → Prop} [DecidablePred p] {i m : ArgList}
    (hcell : i.cellAt = l.cellAt) (h : Narrowed t p i m) : Narrowed t p l m := by
  obtain ⟨positive, cells, met⟩ := h
  rw [hcell] at cells met
  exact ⟨positive, cells, met⟩

theorem Stopped.of_cellAt {t : Shape} {stop : ℕ} {i m : ArgList}
    (hcell : i.cellAt = l.cellAt) (h : Stopped t n stop i m) : Stopped t n stop l m := by
  obtain ⟨positive, le, cells, met, contradiction⟩ := h
  rw [hcell] at cells met contradiction
  exact ⟨positive, le, cells, met, contradiction⟩

/-- To give the arguments at the places from `first` to `last` a shape. -/
theorem restrict_cases (h : l.Positive) {first last : ℕ} (hle : first ≤ last)
    (hr : l.Reaches (last + 1)) (t : Shape) :
    (∃ m, l.restrict first last t = some m ∧
      Narrowed t (fun k => first ≤ k ∧ k ≤ last) l m) ∨
    ∃ m stop, l.restrict first last t = m.endAt stop ∧ stop ≤ last ∧ Stopped t first stop l m := by
  have heq : l.restrict first last t = (l.isolate first last).restrictIsolated first last t := rfl
  have hcell : (l.isolate first last).cellAt = l.cellAt := cellAt_isolate h
  rw [heq]
  rcases restrictIsolated_cases h.isolate hle (lt_extent_isolate h hr) t with
    ⟨m, hm, hn⟩ | ⟨m, stop, hm, hlast, hs⟩
  · exact .inl ⟨m, hm, hn.of_cellAt hcell⟩
  · exact .inr ⟨m, stop, hm, hlast, hs.of_cellAt hcell⟩

/-- What `restrictFrom` does once a run starts at the place. -/
def restrictRest (l : ArgList) (n : ℕ) (t : Shape) : Option ArgList :=
  let before := Segment.takeArgs n l.initial
  let (done, failed) := Segment.restrict t (Segment.dropArgs n l.initial)
  let initial := before ++ done ++ failed
  if !failed.isEmpty then endAt { l with initial } (n + Segment.extent done)
  else
    let (turned, failed) := Segment.restrict t l.repeated
    let l : ArgList := ⟨initial, turned ++ failed⟩
    if failed.isEmpty then some l
    else l.endAt (Segment.extent initial + Segment.extent turned)

/-- Narrowing the rest of the initial segment and the loop. -/
theorem restricted_loop {l m : ArgList} {t : Shape} {s done turned : Segment} {b u v : List Cell}
    (hs : Segment.Restricted t s done [] u) (hr : Segment.Restricted t l.repeated turned [] v)
    (hl : Segment.cells l.initial = b ++ Segment.cells s)
    (hm : Segment.cells m.initial = b ++ Segment.cells done) (hmr : m.repeated = turned) :
    (∀ k, m.cellAt k = (l.cellAt k).map (if b.length ≤ k then Cell.narrow t else id)) ∧
      ∀ k c, b.length ≤ k → l.cellAt k = some c → c.shape.meet t ≠ none := by
  have hsplit := hs.split
  have hrsplit := hr.split
  simp only [Segment.cells_nil, List.append_nil] at hsplit hrsplit
  rw [cellAt_eq_lasso m, cellAt_eq_lasso l, hm, hl, hmr, hs.cells, hr.cells, hsplit, hrsplit]
  refine ⟨fun k => lasso_map_loop _ _ _ _ _, fun k c hk hc => ?_⟩
  rw [lasso_append, if_neg (by omega), lasso] at hc
  split_ifs at hc
  · exact hs.met c (List.mem_of_getElem? hc)
  · exact hr.met c (List.mem_of_getElem? hc)

/-- Narrowing the rest of the initial segment and part of the loop. -/
theorem stopped_loop {l m : ArgList} {t : Shape} {s done turned failed : Segment} {r : Run}
    {b u v : List Cell} (hs : Segment.Restricted t s done [] u)
    (hr : Segment.Restricted t l.repeated turned (r :: failed) v)
    (hl : Segment.cells l.initial = b ++ Segment.cells s)
    (hm : Segment.cells m.initial = b ++ Segment.cells done)
    (hmr : m.repeated = turned ++ r :: failed) (hpos : m.Positive) :
    Stopped t b.length (b.length + u.length + v.length) l m := by
  have hsplit := hs.split
  have hrpos := (Segment.positive_cons.mp hr.positive.2).1
  simp only [Segment.cells_nil, List.append_nil] at hsplit
  set w := List.replicate (r.count - 1) r.cell ++ Segment.cells failed
  -- one turn of the loop written out in both lists
  have hlcell : ∀ k ≤ b.length + u.length + v.length,
      l.cellAt k = (b ++ ((u ++ v) ++ r.cell :: w))[k]? := by
    intro k hk
    rw [cellAt_eq_lasso, ← lasso_append_loop, hl, hsplit, hr.split, Segment.cells_cons_pos _ hrpos,
      lasso, if_pos (by simp only [List.length_append, List.length_cons]; omega)]
    simp only [List.append_assoc, w]
  have hmcell : ∀ k ≤ b.length + u.length + v.length,
      m.cellAt k = (b ++ ((u ++ v).map (Cell.narrow t) ++ r.cell :: w))[k]? := by
    intro k hk
    rw [cellAt_eq_lasso, ← lasso_append_loop, hm, hs.cells, hmr, Segment.cells_append, hr.cells,
      Segment.cells_cons_pos _ hrpos, lasso, if_pos
        (by simp only [List.length_append, List.length_map, List.length_cons]; omega)]
    simp only [List.append_assoc, List.map_append, w]
  refine ⟨hpos, by omega, fun k hk => ?_, fun k c hk hlt hc => ?_, r.cell, ?_, hr.stop r rfl⟩
  · have := lasso_map_middle (Cell.narrow t) b (u ++ v) (r.cell :: w) [] k
    simp only [lasso_nil_loop, List.length_append, ← Nat.add_assoc] at this
    rw [hmcell k hk, hlcell k hk, this]
  · rw [hlcell k hlt.le, List.getElem?_append_right hk, List.getElem?_append_left
      (by simp only [List.length_append]; omega)] at hc
    rcases List.mem_append.mp (List.mem_of_getElem? hc) with hc | hc
    · exact hs.met c hc
    · exact hr.met c hc
  · rw [hlcell _ (Nat.le_refl _), List.getElem?_append_right (by omega),
      List.getElem?_append_right (by simp only [List.length_append]; omega)]
    simp [show b.length + u.length + v.length - b.length - (u.length + v.length) = 0 by omega]

theorem restrictRest_cases (h : l.Positive) (hext : n ≤ Segment.extent l.initial) (t : Shape) :
    (∃ m, l.restrictRest n t = some m ∧ Narrowed t (fun k => n ≤ k) l m) ∨
    ∃ m stop, l.restrictRest n t = m.endAt stop ∧ Stopped t n stop l m := by
  obtain ⟨u, hu⟩ := Segment.restricted_restrict t (h.1.dropArgs n)
  obtain ⟨v, hv⟩ := Segment.restricted_restrict t h.2
  have hb := h.1.takeArgs n
  have hblen : (Segment.cells (Segment.takeArgs n l.initial)).length = n :=
    Segment.length_cells_takeArgs hext
  have hinit : Segment.cells l.initial = Segment.cells (Segment.takeArgs n l.initial) ++
      Segment.cells (Segment.dropArgs n l.initial) :=
    (Segment.cells_takeArgs_append n l.initial).symm
  unfold restrictRest
  dsimp only
  generalize Segment.restrict t (Segment.dropArgs n l.initial) = result at hu ⊢
  generalize Segment.restrict t l.repeated = loop at hv ⊢
  obtain ⟨done, failed⟩ := result
  obtain ⟨turned, left⟩ := loop
  dsimp only at hu hv ⊢
  set before := Segment.takeArgs n l.initial with hbefore
  cases failed with
  | cons r failed =>
      right
      have hpos : ArgList.Positive ⟨before ++ done ++ r :: failed, l.repeated⟩ :=
        ⟨Segment.positive_append.mpr ⟨Segment.positive_append.mpr ⟨hb, hu.positive.1⟩,
          hu.positive.2⟩, h.2⟩
      obtain ⟨hcells, hmet, hstop⟩ := restricted_initial (l := l)
        (m := ⟨before ++ done ++ r :: failed, l.repeated⟩) hu rfl
        (b := Segment.cells before) (w := []) (by simpa using hinit)
        (by simp only [Segment.cells_append, List.append_assoc, List.append_nil])
      simp only [hblen] at hcells hmet hstop
      refine ⟨_, n + u.length, ?_, hpos, Nat.le_add_right _ _, fun k _ => hcells k, hmet, r.cell,
        hstop r rfl, hu.stop r rfl⟩
      rw [hu.extent]
      rfl
  | nil =>
      have hinitial : Segment.Positive (before ++ done) :=
        Segment.positive_append.mpr ⟨hb, hu.positive.1⟩
      cases left with
      | nil =>
          left
          obtain ⟨hcells, hmet⟩ := restricted_loop (l := l) (m := ⟨before ++ done, turned⟩) hu hv
            hinit (Segment.cells_append before done) rfl
          simp only [hblen] at hcells hmet
          refine ⟨_, ?_, ⟨hinitial, hv.positive.1⟩, hcells, hmet⟩
          simp only [List.append_nil]
          rfl
      | cons r left =>
          right
          have hstopped := stopped_loop (l := l) (m := ⟨before ++ done, turned ++ r :: left⟩) hu hv
            hinit (Segment.cells_append before done) rfl
            ⟨hinitial, Segment.positive_append.mpr hv.positive⟩
          rw [hblen] at hstopped
          refine ⟨_, _, ?_, hstopped⟩
          simp only [List.append_nil, List.isEmpty_nil, List.isEmpty_cons, Bool.not_true,
            Bool.false_eq_true, if_false]
          rw [Segment.extent_append, hu.extent, hv.extent, ← Segment.length_cells before, hblen]

/-- To give the arguments at place `n` and later a shape. -/
theorem restrictFrom_cases (h : l.Positive) (hr : l.Reaches n) (t : Shape) :
    (∃ m, l.restrictFrom n t = some m ∧ Narrowed t (fun k => n ≤ k) l m) ∨
    ∃ m stop, l.restrictFrom n t = m.endAt stop ∧ Stopped t n stop l m := by
  have heq : l.restrictFrom n t = (l.split n).restrictRest n t := rfl
  have hcell := cellAt_split h n
  rw [heq]
  rcases restrictRest_cases (h.split n) (le_extent_split h hr) t with
    ⟨m, hm, hn⟩ | ⟨m, stop, hm, hs⟩
  · exact .inl ⟨m, hm, hn.of_cellAt hcell⟩
  · exact .inr ⟨m, stop, hm, hs.of_cellAt hcell⟩

/-- To forbid the arguments from place `n` on, if there are any. -/
theorem endAt_eq (h : l.Positive) {c : Cell} (hc : l.cellAt n = some c) :
    ∃ s, l.endAt n = endBefore s (some c.presence) ∧ Segment.Positive s ∧
      Segment.extent s = n ∧ ∀ k < n, (Segment.cells s)[k]? = l.cellAt k := by
  have hr := reaches_of_cellAt hc
  have hpos := h.split n
  have hext := le_extent_split h (hr.mono (Nat.le_succ n))
  have hpresence : Segment.firstPresence (Segment.dropArgs n (l.split n).initial ++
      (l.split n).repeated) = some c.presence := by
    have hcell := cellAt_split h n
    have hdrop : Segment.Positive (Segment.dropArgs n (l.split n).initial ++
        (l.split n).repeated) := Segment.positive_append.mpr ⟨hpos.1.dropArgs n, hpos.2⟩
    have htake : ((Segment.cells (l.split n).initial).take n).length = n := by simpa using hext
    rw [← hcell, cellAt_eq _ n, lasso_of_le _ _ _ htake.ge,
      List.getElem?_append_right htake.le, htake, Nat.sub_self, ← Segment.cells_dropArgs,
      ← Segment.cells_append, Segment.head?_cells hdrop] at hc
    rw [Segment.firstPresence]
    cases hhead : (Segment.dropArgs n (l.split n).initial ++ (l.split n).repeated).head? with
    | none => simp [hhead] at hc
    | some r =>
        rw [hhead] at hc
        cases hc
        rfl
  refine ⟨Segment.takeArgs n (l.split n).initial, ?_, hpos.1.takeArgs n, ?_, fun k hk => ?_⟩
  · rw [endAt, if_neg]
    · dsimp only
      rw [hpresence]
    · simp only [Bool.and_eq_true, decide_eq_true_eq, not_and, not_le]
      exact fun hfin => hr hfin
  · rw [← Segment.length_cells, Segment.length_cells_takeArgs hext]
  · rw [Segment.cells_takeArgs, List.getElem?_take_of_lt hk, ← cellAt_split h n,
      cellAt_of_lt (by omega)]

end ArgList

end CatalogLint
