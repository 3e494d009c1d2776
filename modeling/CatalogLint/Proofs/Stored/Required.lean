import CatalogLint.Proofs.Stored.Representation

/-!
# Required arguments

Whether a list requires its first arguments is found out run by run: how many of them are still to
be covered is counted down along the runs, and the loop is walked once, however far away the last
one is. `StoredList.isRequired_exact` compares that with what is looked up at each single position.
-/
namespace CatalogLint

namespace ArgList
variable {l : ArgList} {n : ℕ}

/-- What the walk looks at: the list is long enough, and the arguments of its initial segment and
of one turn of its loop are required, as far as they are among those asked for. -/
theorem isRequired_iff_take (h : l.Positive) :
    l.isRequired n = true ↔ l.Reaches (n + 1) ∧
      ∀ c ∈ (Segment.cells l.initial).take (n + 1) ++
        (Segment.cells l.repeated).take (n + 1 - (Segment.cells l.initial).length),
        c.presence = .required := by
  rw [isRequired, Segment.uncovered_eq h.1 n.add_one_pos, List.forall_mem_append,
    Segment.length_cells, Reaches]
  split_ifs with hinitial
  · rw [and_iff_right hinitial]
    -- The loop is asked only about what the initial segment leaves uncovered.
    rcases hleft : n + 1 - Segment.extent l.initial with _ | k
    · have hle : n + 1 ≤ Segment.extent l.initial := by omega
      simp [hle]
    · have hlt : ¬n + 1 ≤ Segment.extent l.initial := by omega
      simp only [Segment.uncovered_eq h.2 k.add_one_pos]
      cases l.isFinite <;> simp [hlt]
  · refine iff_of_false not_false ?_
    rintro ⟨-, hall, -⟩
    exact hinitial hall

/-- The walk decides what holds at every single position. -/
theorem isRequired_iff (h : l.Positive) :
    l.isRequired n = true ↔ ∀ i ≤ n, ∃ c, l.cellAt i = some c ∧ c.presence = .required := by
  simp only [isRequired_iff_take h, reaches_iff h, Sequence.mem_take_iff_lasso,
    ← cellAt_eq_lasso]
  constructor
  · rintro ⟨⟨c, hc⟩, hall⟩ i hi
    obtain ⟨d, hd⟩ := exists_cellAt_of_le hc hi
    exact ⟨d, hd, hall d ⟨i, Nat.lt_succ_of_le hi, hd⟩⟩
  · intro hall
    refine ⟨(hall n le_rfl).imp fun _ => And.left, ?_⟩
    rintro c ⟨i, hi, hc⟩
    obtain ⟨d, hd, hreq⟩ := hall i (Nat.le_of_lt_succ hi)
    rw [hc, Option.some.injEq] at hd
    rwa [hd]

/-- From the end of the first turn of the loop on, the answer is the same at all positions. -/
theorem isRequired_iff_runs (h : l.Positive) (hloop : l.isFinite = false)
    (hturn : Segment.extent l.initial + Segment.extent l.repeated ≤ n + 1) :
    l.isRequired n = true ↔ ∀ r ∈ l.runs, r.presence = .required := by
  have hreaches : l.Reaches (n + 1) := by simp [Reaches, hloop]
  have hinitial : (Segment.cells l.initial).length ≤ n + 1 := by
    rw [Segment.length_cells]
    omega
  have hrepeated : (Segment.cells l.repeated).length ≤
      n + 1 - (Segment.cells l.initial).length := by
    rw [Segment.length_cells, Segment.length_cells]
    omega
  rw [isRequired_iff_take h, List.take_of_length_le hinitial, List.take_of_length_le hrepeated,
    ← Segment.cells_append, Segment.forall_mem_cells (Segment.positive_append.mpr h)]
  exact and_iff_right hreaches

theorem exists_required_stored (h : l.Positive) (n : ℕ) :
    (∃ r, l.stored.argAt n = .ok (some r) ∧ r.presence = .required) ↔
      ∃ c, l.cellAt n = some c ∧ c.presence = .required := by
  rw [argAt_stored h, cellAt]
  cases l.argAt n <;> simp [Run.cell]

end ArgList

namespace StoredList
variable {w : Word} {l : StoredList} {n : ℕ}

/-- The countdown along the runs never goes below zero, and it decides whether the arguments at all
positions up to `n` are there and are required. If these positions go beyond the first turn of the
loop, that is to say that all runs are. -/
theorem isRequired_exact (h : l.Valid) (hfits : w.Fits (n + 1)) :
    (∀ i, ∃ o, l.argAt i = .ok o) ∧ ∃ required, l.isRequired w n = .ok required ∧
      (required = true ↔ ∀ i ≤ n, ∃ r, l.argAt i = .ok (some r) ∧ r.presence = .required) ∧
      (l.isFinite = false → l.initial.length + l.repeated.length ≤ n + 1 →
        (required = true ↔ ∀ r ∈ l.initial.runs ++ l.repeated.runs, r.presence = .required)) := by
  obtain ⟨m, hm, rfl⟩ := valid_iff.mp h
  have hpos := hm.positive
  refine ⟨fun i => ⟨_, ArgList.argAt_stored hpos i⟩, _, ArgList.isRequired_stored hfits, ?_,
    fun hloop hturn => ?_⟩
  · simp only [ArgList.exists_required_stored hpos]
    exact ArgList.isRequired_iff hpos
  · rw [ArgList.isFinite_stored] at hloop
    rw [ArgList.runs_stored, List.forall_mem_map]
    simp only [Run.presence_stored]
    exact ArgList.isRequired_iff_runs hpos hloop hturn

/-- The largest position that can be asked about, more than `10 ^ 18` turns of the loop away. -/
theorem isRequired_exact_largest :
    let integers : StoredShape := ⟨.ofList [.integer], false, none⟩
    let strings : StoredShape := ⟨.ofList [.array], false, none⟩
    let l : StoredList := ⟨⟨[⟨2, .required, strings⟩], 2⟩,
      ⟨[⟨1, .required, integers⟩, ⟨2, .required, strings⟩], 3⟩⟩
    let n := 18446744073709551614
    l.Valid ∧ Word.bits64.Fits (n + 1) ∧ l.isRequired .bits64 n = .ok true ∧
      ∀ i ≤ n, ∃ r, l.argAt i = .ok (some r) ∧ r.presence = .required := by
  intro integers strings l n
  have hl : l.Valid := verify_iff.mp (by decide +kernel)
  have hn : Word.bits64.Fits (n + 1) := by decide
  have hanswer : l.isRequired .bits64 n = .ok true := by decide +kernel
  obtain ⟨-, required, hrequired, hall, -⟩ := isRequired_exact hl hn
  rw [hanswer] at hrequired
  exact ⟨hl, hn, hanswer, hall.mp (Except.ok.inj hrequired).symm⟩

end StoredList

end CatalogLint
