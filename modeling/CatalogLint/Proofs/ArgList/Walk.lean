import CatalogLint.Proofs.ArgList.Ending

/-!
# Walking two lists together

What two lists say together of an argument is one cell (`Cell.common`), impossible where the
shapes do not meet or one list has ended. A walk along two segments finds the common cells, up to
the end of one segment or to two cells that do not meet (`Segment.walk_finds`).
-/
namespace CatalogLint
open Sequence

/-- What two lists say together of one argument. -/
def Cell.common (meet : Shape → Shape → Option Shape) : Option Cell → Option Cell → Option Cell
  | none, none => none
  | some c, none | none, some c => some ⟨c.presence, .nothing⟩
  | some c, some d =>
      some ⟨c.presence.combine d.presence, (meet c.shape d.shape).getD .nothing⟩

theorem Presence.combine_eq_optional (p q : Presence) :
    p.combine q = .optional ↔ p = .optional ∧ q = .optional := by
  cases p <;> cases q <;> decide

theorem Follows.common {meet : Shape → Shape → Option Shape} {f g : ℕ → Option Cell}
    (hmeet : ∀ n c d, f n = some c → g n = some d → ∀ x : Value,
      x.Fits ((meet c.shape d.shape).getD .nothing) ↔ x.Fits c.shape ∧ x.Fits d.shape)
    (xs : List Value) :
    Follows xs (fun n => Cell.common meet (f n) (g n)) ↔ Follows xs f ∧ Follows xs g := by
  have hfits : ∀ n (x : Value), (∃ e, Cell.common meet (f n) (g n) = some e ∧ x.Fits e.shape) ↔
      (∃ c, f n = some c ∧ x.Fits c.shape) ∧ ∃ d, g n = some d ∧ x.Fits d.shape := by
    intro n x
    cases hf : f n with
    | none => cases g n <;> simp [Cell.common, x.not_fits_nothing]
    | some c =>
        cases hg : g n with
        | none => simp [Cell.common, x.not_fits_nothing]
        | some d => simpa [Cell.common] using hmeet n c d hf hg x
  have hends : ∀ n, (∀ e, Cell.common meet (f n) (g n) = some e → e.presence = .optional) ↔
      (∀ c, f n = some c → c.presence = .optional) ∧
        ∀ d, g n = some d → d.presence = .optional := by
    intro n
    cases f n <;> cases g n <;> simp [Cell.common, Presence.combine_eq_optional]
  simp only [Follows, hfits, hends]
  constructor
  · rintro ⟨fits, ends⟩
    exact ⟨⟨fun i x hx => (fits i x hx).1, ends.1⟩, fun i x hx => (fits i x hx).2, ends.2⟩
  · rintro ⟨⟨fits, ends⟩, fits', ends'⟩
    exact ⟨fun i x hx => ⟨fits i x hx, fits' i x hx⟩, ends, ends'⟩

/-- Both lists have the argument, and their shapes meet. -/
def Cell.Meets (meet : Shape → Shape → Option Shape) (o p : Option Cell) : Prop :=
  ∃ c d t, o = some c ∧ p = some d ∧ meet c.shape d.shape = some t

/-- The cells of two rows meet, in those of a third. -/
inductive Met (meet : Shape → Shape → Option Shape) : List Cell → List Cell → List Cell → Prop
  | nil : Met meet [] [] []
  | cons {c d : Cell} {t : Shape} {u v w : List Cell} (shape : meet c.shape d.shape = some t)
      (rest : Met meet u v w) :
      Met meet (c :: u) (d :: v) (⟨c.presence.combine d.presence, t⟩ :: w)

namespace Met
variable {meet : Shape → Shape → Option Shape} {u v w u' v' w' : List Cell}

theorem replicate {c d : Cell} {t : Shape} (h : meet c.shape d.shape = some t) (n : ℕ)
    (rest : Met meet u v w) :
    Met meet (List.replicate n c ++ u) (List.replicate n d ++ v)
      (List.replicate n ⟨c.presence.combine d.presence, t⟩ ++ w) := by
  induction n with
  | zero => exact rest
  | succ n ih => exact .cons h ih

theorem append (h : Met meet u v w) (h' : Met meet u' v' w') :
    Met meet (u ++ u') (v ++ v') (w ++ w') := by
  induction h with
  | nil => exact h'
  | cons shape _ ih => exact .cons shape ih

theorem length_left (h : Met meet u v w) : u.length = w.length := by
  induction h with
  | nil => rfl
  | cons _ _ ih => rw [List.length_cons, List.length_cons, ih]

theorem length_right (h : Met meet u v w) : v.length = w.length := by
  induction h with
  | nil => rfl
  | cons _ _ ih => rw [List.length_cons, List.length_cons, ih]

theorem getElem? (h : Met meet u v w) (n : ℕ) : w[n]? = Cell.common meet u[n]? v[n]? := by
  induction h generalizing n with
  | nil => rfl
  | cons shape _ ih =>
      cases n with
      | zero => simp [Cell.common, shape]
      | succ n => simpa using ih n

theorem meets (h : Met meet u v w) {n : ℕ} (hn : n < w.length) : Cell.Meets meet u[n]? v[n]? := by
  induction h generalizing n with
  | nil => cases hn
  | @cons c d t _ _ _ shape _ ih =>
      cases n with
      | zero => exact ⟨c, d, t, rfl, rfl, shape⟩
      | succ n => exact ih (Nat.lt_of_succ_lt_succ hn)

theorem lasso (h : Met meet u v w) (h' : Met meet u' v' w') (n : ℕ) :
    lasso w w' n = Cell.common meet (lasso u u' n) (lasso v v' n) := by
  simp only [Sequence.lasso, turn, h.length_left, h.length_right, h'.length_left,
    h'.length_right]
  split_ifs
  · exact h.getElem? n
  · exact h'.getElem? _

theorem meets_lasso (h : Met meet u v w) (h' : Met meet u' v' w') (hw : w' ≠ []) (n : ℕ) :
    Cell.Meets meet (Sequence.lasso u u' n) (Sequence.lasso v v' n) := by
  have hpos : 0 < w'.length := List.length_pos_iff.mpr hw
  simp only [Sequence.lasso, turn, h.length_left, h.length_right, h'.length_left,
    h'.length_right]
  split_ifs with hn
  · exact h.meets hn
  · exact h'.meets (Nat.mod_lt _ hpos)

/-- Cells that meet, and then two that do not. -/
theorem getElem?_stop (h : Met meet u v w) {c d : Option Cell} {p : Option Presence}
    (hp : Cell.common meet c d = p.map fun p => ⟨p, .nothing⟩) (n : ℕ) :
    (w ++ (p.map fun p => ⟨p, .nothing⟩).toList)[n]? =
      Cell.common meet (u ++ c.toList)[n]? (v ++ d.toList)[n]? := by
  induction h generalizing n with
  | nil =>
      cases n with
      | zero =>
          have hzero : ∀ o : Option Cell, ([] ++ o.toList)[0]? = o := by
            intro o
            cases o <;> rfl
          rw [hzero, hzero, hzero, hp]
      | succ n => cases c <;> cases d <;> cases p <;> simp [Cell.common]
  | cons shape _ ih =>
      cases n with
      | zero => simp [Cell.common, shape]
      | succ n => simpa using ih n

end Met

namespace Segment

/-- What a walk along segments with these cells finds. -/
def Walk.Finds (meet : Shape → Shape → Option Shape) (u v : List Cell) : Walk → Prop
  | .exhausted c x y =>
      (∃ u' v', u = u' ++ cells x ∧ v = v' ++ cells y ∧ Met meet u' v' (cells c)) ∧
      (x = [] ∨ y = []) ∧ Positive c ∧ Positive x ∧ Positive y
  | .contradiction c p => (∃ u' v' d e u'' v'', u = u' ++ d :: u'' ∧ v = v' ++ e :: v'' ∧
      Met meet u' v' (cells c) ∧ meet d.shape e.shape = none ∧
      p = d.presence.combine e.presence) ∧ Positive c

variable {meet : Shape → Shape → Option Shape}

theorem Walk.Finds.cons {u v : List Cell} {c d : Cell} {t : Shape} {w : Walk} {n : ℕ}
    (h : w.Finds meet u v) (ht : meet c.shape d.shape = some t) (hn : 0 < n) :
    (w.cons ⟨n, c.presence.combine d.presence, t⟩).Finds meet (List.replicate n c ++ u)
      (List.replicate n d ++ v) := by
  cases w with
  | exhausted w x y =>
      obtain ⟨⟨u', v', rfl, rfl, hmet⟩, hxy, hw, hx, hy⟩ := h
      refine ⟨⟨_, _, ?_, ?_, hmet.replicate ht n⟩, hxy, positive_cons.mpr ⟨hn, hw⟩, hx, hy⟩
      · rw [List.append_assoc]
      · rw [List.append_assoc]
  | contradiction w p =>
      obtain ⟨⟨u', v', a, b, u'', v'', rfl, rfl, hmet, hnone, hp⟩, hw⟩ := h
      refine ⟨⟨_, _, a, b, u'', v'', ?_, ?_, hmet.replicate ht n, hnone, hp⟩,
        positive_cons.mpr ⟨hn, hw⟩⟩
      · rw [List.append_assoc]
      · rw [List.append_assoc]

theorem walk_finds {s t : Segment} (hs : Positive s) (ht : Positive t) :
    (walk meet s t).Finds meet (cells s) (cells t) := by
  fun_induction walk meet s t with
  | case1 s => exact ⟨⟨[], [], rfl, rfl, .nil⟩, .inl rfl, positive_nil, positive_nil, ht⟩
  | case2 r s => exact ⟨⟨[], [], rfl, rfl, .nil⟩, .inr rfl, positive_nil, hs, positive_nil⟩
  | case3 q s r t presence hnone =>
      obtain ⟨hq, -⟩ := positive_cons.mp hs
      obtain ⟨hr, -⟩ := positive_cons.mp ht
      exact ⟨⟨[], [], q.cell, r.cell, _, _, cells_cons_pos s hq, cells_cons_pos t hr, .nil, hnone,
        rfl⟩, positive_nil⟩
  | case4 q s r t presence shape hsome hlt ih =>
      obtain ⟨hq, hs⟩ := positive_cons.mp hs
      obtain ⟨-, ht⟩ := positive_cons.mp ht
      rw [cells_cons, cells_cons_sub t hlt.le]
      exact (ih hs (positive_cons.mpr ⟨Nat.sub_pos_of_lt hlt, ht⟩)).cons hsome hq
  | case5 q s r t presence shape hsome hle hlt ih =>
      obtain ⟨-, hs⟩ := positive_cons.mp hs
      obtain ⟨hr, ht⟩ := positive_cons.mp ht
      rw [cells_cons r, cells_cons_sub s hlt.le]
      exact (ih (positive_cons.mpr ⟨Nat.sub_pos_of_lt hlt, hs⟩) ht).cons hsome hr
  | case6 q s r t presence shape hsome hle hge ih =>
      obtain ⟨hq, hs⟩ := positive_cons.mp hs
      obtain ⟨-, ht⟩ := positive_cons.mp ht
      rw [cells_cons, cells_cons, show r.count = q.count by omega]
      exact (ih hs ht).cons hsome hq

end Segment

end CatalogLint
