import CatalogLint.ArgList.Intersection
import CatalogLint.Proofs.ArgList.Acceptance
import CatalogLint.Proofs.ArgList.Surgery

/-!
# Lists that end where an argument is impossible

An argument that cannot satisfy its constraints is described by a cell of the shape `nothing`,
which no value fits. The arguments before such a cell are the only ones that matter, and if it is
required, neither do all required arguments right before it. Ending a list before the impossible
argument therefore accepts what the cells accept (`accepts_endBefore`).
-/
namespace CatalogLint

/-- The shape of an argument that no value can be. -/
def Shape.nothing : Shape :=
  .plain ⟨0⟩

theorem Value.not_fits_nothing (x : Value) : ¬ x.Fits .nothing := by
  rw [Shape.nothing, fits_plain]
  exact fun h => by simp [Membership.mem, Kinds.contains] at h

namespace Follows
variable {xs : List Value} {f g : ℕ → Option Cell}

theorem congr (h : ∀ n ≤ xs.length, f n = g n) : Follows xs f ↔ Follows xs g := by
  have hlt : ∀ {i x}, xs[i]? = some x → f i = g i := by
    intro i x hx
    exact h i (List.getElem?_eq_some_iff.mp hx).1.le
  constructor
  · rintro ⟨fits, ends⟩
    exact ⟨fun i x hx => hlt hx ▸ fits i x hx, h _ (Nat.le_refl _) ▸ ends⟩
  · rintro ⟨fits, ends⟩
    exact ⟨fun i x hx => (hlt hx).symm ▸ fits i x hx, (h _ (Nat.le_refl _)).symm ▸ ends⟩

/-- No argument stands at an impossible place, nor after it. -/
theorem length_le (h : Follows xs f) {k : ℕ} (hk : ∀ c, f k = some c → c.shape = .nothing) :
    xs.length ≤ k := by
  by_contra hlt
  obtain ⟨x, hx⟩ : ∃ x, xs[k]? = some x := by
    exact ⟨_, List.getElem?_eq_getElem (by omega)⟩
  obtain ⟨c, hc, hfit⟩ := h.1 k x hx
  rw [hk c hc] at hfit
  exact x.not_fits_nothing hfit

theorem congr_before {k : ℕ} (h : ∀ n ≤ k, f n = g n)
    (hk : ∀ c, f k = some c → c.shape = .nothing) : Follows xs f ↔ Follows xs g := by
  constructor
  · intro hf
    have := hf.length_le hk
    exact (congr fun n hn => h n (by omega)).mp hf
  · intro hg
    have := hg.length_le (by rwa [← h k (Nat.le_refl k)])
    exact (congr fun n hn => h n (by omega)).mpr hg

/-- The arguments cannot reach these cells, wherever they stand. -/
def Blocks (xs : List Value) (t : List Cell) : Prop :=
  ∀ u, Follows xs (fun n => (u ++ t)[n]?) → xs.length < u.length

theorem Blocks.cons {t : List Cell} {c : Cell} (hc : c.presence = .required) (h : Blocks xs t) :
    Blocks xs (c :: t) := by
  intro u hu
  have hlt : xs.length < (u ++ [c]).length := h (u ++ [c]) (by simpa using hu)
  simp only [List.length_append, List.length_singleton] at hlt
  by_contra hle
  have hlen : xs.length = u.length := by omega
  have hopt := hu.2 c (by simp [hlen])
  rw [hc] at hopt
  cases hopt

theorem Blocks.replicate {t : List Cell} {c : Cell} (hc : c.presence = .required)
    (h : Blocks xs t) (k : ℕ) : Blocks xs (List.replicate k c ++ t) := by
  induction k with
  | zero => exact h
  | succ k ih => exact ih.cons hc

theorem length_le_impossible {u t : List Cell} {c : Cell} (hc : c.shape = .nothing)
    (h : Follows xs fun n => (u ++ c :: t)[n]?) : xs.length ≤ u.length := by
  apply h.length_le
  intro d hd
  rw [List.getElem?_append_right (Nat.le_refl _), Nat.sub_self] at hd
  cases hd
  exact hc

theorem blocks_impossible {c : Cell} (hc : c.shape = .nothing) (hp : c.presence = .required) :
    Blocks xs [c] := by
  intro u h
  have hle := h.length_le_impossible hc
  by_contra hlt
  have hopt := h.2 c (by simp [show xs.length = u.length by omega])
  rw [hp] at hopt
  cases hopt

/-- The sequence ends before an optional argument that it cannot reach past. -/
theorem before_optional {u t : List Cell} {o : Cell} (ho : o.presence = .optional)
    (hle : Follows xs (fun n => (u ++ o :: t)[n]?) → xs.length ≤ u.length) :
    Follows xs (fun n => (u ++ o :: t)[n]?) ↔ Follows xs (fun n => u[n]?) := by
  have hget : ∀ {n}, n < u.length → (u ++ o :: t)[n]? = u[n]? := by
    intro n hn
    rw [List.getElem?_append_left hn]
  constructor
  · intro h
    have hle := hle h
    refine ⟨fun i x hx => ?_, fun d hd => ?_⟩
    · have hi := (List.getElem?_eq_some_iff.mp hx).1
      have hfit := h.1 i x hx
      dsimp only at hfit ⊢
      rwa [hget (by omega)] at hfit
    · have hi := (List.getElem?_eq_some_iff.mp hd).1
      exact h.2 d ((hget hi).trans hd)
  · intro h
    have hle : xs.length ≤ u.length := h.length_le (by simp)
    refine ⟨fun i x hx => ?_, fun d hd => ?_⟩
    · have hi := (List.getElem?_eq_some_iff.mp hx).1
      dsimp only
      rw [hget (by omega)]
      exact h.1 i x hx
    · rcases Nat.lt_or_eq_of_le hle with hi | hi
      · exact h.2 d ((hget hi).symm.trans hd)
      · dsimp only at hd
        rw [hi, List.getElem?_append_right (Nat.le_refl _), Nat.sub_self] at hd
        cases hd
        exact ho

end Follows

namespace Segment

/-- The cells of a segment and, unless nothing follows it, an impossible argument. -/
def cellsBefore (s : Segment) (p : Option Presence) : List Cell :=
  cells s ++ (p.map fun p => ⟨p, .nothing⟩).toList

/-- A run without its last argument. -/
def butLast (r : Run) : Segment :=
  if r.count > 1 then [r.withCount (r.count - 1)] else []

theorem positive_butLast (r : Run) : Positive (butLast r) := by
  unfold butLast
  split_ifs with h
  · exact positive_cons.mpr ⟨Nat.sub_pos_of_lt h, positive_nil⟩
  · exact positive_nil

theorem cells_butLast {r : Run} (hr : 0 < r.count) :
    cells (butLast r) ++ [r.cell] = List.replicate r.count r.cell := by
  unfold butLast
  split_ifs with h
  · obtain ⟨k, hk⟩ := Nat.exists_eq_add_of_lt h
    simp [show r.count = 1 + k + 1 by omega, List.replicate_succ']
  · simp [show r.count = 1 by omega]

end Segment

namespace ArgList

theorem backtrack_concat (s : Segment) (r : Run) :
    (finite (s ++ [r])).backtrack =
      if r.isRequired then (finite s).backtrack else some (finite (s ++ Segment.butLast r)) := by
  unfold backtrack Segment.butLast
  simp only [finite, List.reverse_append, List.reverse_singleton, List.singleton_append,
    List.dropWhile_cons]
  split_ifs <;> simp [*]

/-- Ending a list before a required argument that is impossible. -/
theorem accepts_backtrack {s : Segment} (hs : Segment.Positive s) {t : List Cell} {xs : List Value}
    (ht : Follows.Blocks xs t) :
    (∃ l ∈ (finite s).backtrack, l.Accepts xs) ↔
      Follows xs fun n => (Segment.cells s ++ t)[n]? := by
  induction s using List.reverseRecOn generalizing t with
  | nil =>
      constructor
      · rintro ⟨l, hl, -⟩
        cases hl
      · intro h
        exact absurd (ht [] h) (Nat.not_lt_zero _)
  | append_singleton s r ih =>
      obtain ⟨hs, hr⟩ := Segment.positive_append.mp hs
      have hr := (Segment.positive_cons.mp hr).1
      rw [backtrack_concat, Segment.cells_append, Segment.cells_cons, Segment.cells_nil,
        List.append_nil]
      split_ifs with hreq
      · rw [List.append_assoc]
        have hcell : r.cell.presence = .required := of_decide_eq_true hreq
        exact ih hs (ht.replicate hcell r.count)
      · have hopt : r.cell.presence = .optional := by
          cases hp : r.presence with
          | required => exact absurd (decide_eq_true hp) hreq
          | optional => exact hp
        have hcells : Segment.cells s ++ List.replicate r.count r.cell ++ t =
            Segment.cells (s ++ Segment.butLast r) ++ r.cell :: t := by
          rw [← Segment.cells_butLast hr, Segment.cells_append]
          simp only [List.append_assoc, List.singleton_append]
        rw [hcells, Follows.before_optional hopt, ← funext (cellAt_finite _),
          ← accepts_iff_follows]
        · simp only [Option.mem_def, Option.some.injEq, exists_eq_left']
        · intro h
          have := ht (Segment.cells (s ++ Segment.butLast r) ++ [r.cell]) (by simpa using h)
          simpa only [List.length_append, List.length_singleton, Nat.lt_succ_iff] using this

theorem Positive.backtrack {s : Segment} {l : ArgList} (hs : Segment.Positive s)
    (h : (finite s).backtrack = some l) : l.Positive := by
  induction s using List.reverseRecOn with
  | nil => cases h
  | append_singleton s r ih =>
      have hs := (Segment.positive_append.mp hs).1
      rw [backtrack_concat] at h
      split_ifs at h
      · exact ih hs h
      · cases h
        exact ⟨Segment.positive_append.mpr ⟨hs, Segment.positive_butLast r⟩,
          Segment.positive_nil⟩

theorem endBefore_of_ne (s : Segment) {p : Option Presence} (hp : p ≠ some .required) :
    endBefore s p = some (finite s) := by
  unfold endBefore
  split
  · exact absurd rfl hp
  · rfl

theorem Positive.endBefore {s : Segment} {p : Option Presence} {l : ArgList}
    (hs : Segment.Positive s) (h : ArgList.endBefore s p = some l) : l.Positive := by
  unfold ArgList.endBefore at h
  split at h
  · exact Positive.backtrack hs h
  · cases h
    exact ⟨hs, Segment.positive_nil⟩

/-- Ending a list accepts what its cells and the impossible argument after them do. -/
theorem accepts_endBefore {s : Segment} (hs : Segment.Positive s) (p : Option Presence)
    (xs : List Value) :
    (∃ l ∈ endBefore s p, l.Accepts xs) ↔
      Follows xs fun n => (Segment.cellsBefore s p)[n]? := by
  have hfin : Follows xs (fun n => (Segment.cells s)[n]?) ↔ (finite s).Accepts xs := by
    rw [accepts_iff_follows, funext (cellAt_finite s)]
  unfold Segment.cellsBefore
  match p with
  | none => simp [endBefore, hfin]
  | some .required => exact accepts_backtrack hs (Follows.blocks_impossible rfl rfl)
  | some .optional =>
      have hbefore : Follows xs (fun n => (Segment.cells s ++ [⟨.optional, .nothing⟩])[n]?) ↔
          Follows xs (fun n => (Segment.cells s)[n]?) :=
        Follows.before_optional rfl fun h => h.length_le_impossible rfl
      simpa [endBefore, hfin] using hbefore.symm

end ArgList

end CatalogLint
