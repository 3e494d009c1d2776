import CatalogLint.Proofs.ArgList.NormalForm

/-!
# Canonicity of normal forms

Two lists are alike when they say the same of every argument, element lists being alike in turn.
The normal form of a list says what the list says, with element lists in normal form
(`cellAt_normalize`), and well-formed lists are alike exactly when their normal forms are equal
(`normalize_eq_iff`).
-/
namespace CatalogLint
open Sequence

namespace ArgList

/-- Both lists end at the same place and constrain each argument alike: in presence, in
categories, and in what they say of its elements. -/
inductive Alike : ArgList → ArgList → Prop
  | intro {a b : ArgList}
      (ends : ∀ n, a.argAt n = none ↔ b.argAt n = none)
      (type : ∀ n q r, a.argAt n = some q → b.argAt n = some r → q.presence = r.presence ∧
        q.shape.kinds = r.shape.kinds ∧ q.shape.isCompound = r.shape.isCompound)
      (elements : ∀ n q r l m, a.argAt n = some q → b.argAt n = some r →
        q.shape.elements? = some l → r.shape.elements? = some m → Alike l m) :
      Alike a b

end ArgList

theorem Run.normalize_eq (r : Run) : r.normalize = ⟨r.count, r.presence, r.shape.normalize⟩ := by
  cases r
  rfl

theorem Run.normalizeList_eq_map (s : List Run) : Run.normalizeList s = s.map Run.normalize := by
  induction s with
  | nil => rfl
  | cons r s ih => rw [Run.normalizeList, ih, List.map_cons]

namespace Shape

theorem kinds_normalize (s : Shape) : s.normalize.kinds = s.kinds := by
  cases s <;> rfl

theorem isCompound_normalize (s : Shape) : s.normalize.isCompound = s.isCompound := by
  cases s <;> rfl

theorem elements?_normalize (s : Shape) :
    s.normalize.elements? = s.elements?.map ArgList.normalize := by
  cases s <;> rfl

/-- A shape is in normal form if its element list is. -/
theorem normalize_eq_iff (s : Shape) :
    s.normalize = s ↔ ∀ m, s.elements? = some m → m.normalize = m := by
  cases s with
  | plain k => simp [normalize, elements?]
  | compound k i r =>
      have heq : (compound k i r).normalize = compound k (ArgList.normalize ⟨i, r⟩).initial
          (ArgList.normalize ⟨i, r⟩).repeated := rfl
      simp only [heq, elements?, Option.some.injEq, forall_eq', compound.injEq, true_and]
      generalize ArgList.normalize ⟨i, r⟩ = m
      cases m
      rw [ArgList.mk.injEq]

theorem normalize_congr {s t : Shape} (hk : s.kinds = t.kinds)
    (hc : s.isCompound = t.isCompound)
    (he : ∀ l m, s.elements? = some l → t.elements? = some m → l.normalize = m.normalize) :
    s.normalize = t.normalize := by
  cases s with
  | plain k =>
      cases t with
      | plain k' => exact congrArg plain hk
      | compound k' j r' => cases hc
  | compound k i r =>
      cases t with
      | plain k' => cases hc
      | compound k' j r' =>
          have h := he _ _ rfl rfl
          rw [ArgList.normalize, ArgList.normalize] at h
          rw [normalize, normalize, h]
          exact congrArg (fun k => compound k _ _) hk

end Shape

def Cell.normalize (c : Cell) : Cell :=
  ⟨c.presence, c.shape.normalize⟩

namespace Segment

theorem cells_normalizeList (s : Segment) :
    cells (Run.normalizeList s) = (cells s).map Cell.normalize := by
  induction s with
  | nil => rfl
  | cons r s ih =>
      rw [Run.normalizeList, cells_cons, ih, cells_cons, List.map_append, List.map_replicate,
        Run.normalize_eq]
      rfl

theorem Positive.normalizeList {s : Segment} (h : Positive s) :
    Positive (Run.normalizeList s) := by
  rw [Run.normalizeList_eq_map]
  intro r hr
  obtain ⟨q, hq, rfl⟩ := List.mem_map.mp hr
  rw [Run.normalize_eq]
  exact h q hq

end Segment

namespace ArgList

theorem Positive.normalizeList {l : ArgList} (h : l.Positive) :
    Positive ⟨Run.normalizeList l.initial, Run.normalizeList l.repeated⟩ :=
  ⟨h.1.normalizeList, h.2.normalizeList⟩

theorem normal_normalize {l : ArgList} (h : l.Positive) : l.normalize.Normal :=
  normal_normalizeOutermost h.normalizeList

theorem cellAt_normalize {l : ArgList} (h : l.Positive) (n : ℕ) :
    l.normalize.cellAt n = (l.cellAt n).map Cell.normalize := by
  rw [normalize, cellAt_normalizeOutermost h.normalizeList, cellAt_eq_lasso, cellAt_eq_lasso]
  simp only [lasso, turn, Segment.cells_normalizeList, List.length_map]
  split_ifs
  · rw [List.getElem?_map]
  · rw [List.getElem?_map]

theorem normalize_ext {a b : ArgList} (ha : a.Positive) (hb : b.Positive)
    (h : ∀ n, (a.cellAt n).map Cell.normalize = (b.cellAt n).map Cell.normalize) :
    a.normalize = b.normalize := by
  apply (normal_normalize ha).ext (normal_normalize hb)
  funext n
  rw [cellAt_normalize ha, cellAt_normalize hb, h]

theorem Alike.normalize_eq {a b : ArgList} (h : a.Alike b) (ha : a.WellFormed)
    (hb : b.WellFormed) : a.normalize = b.normalize := by
  induction h with
  | @intro a b ends type elements ih =>
      refine normalize_ext ha.positive hb.positive fun n => ?_
      rw [cellAt, cellAt]
      cases hq : a.argAt n with
      | none => rw [(ends n).mp hq]
      | some q =>
          cases hr : b.argAt n with
          | none => rw [(ends n).mpr hr] at hq; cases hq
          | some r =>
              obtain ⟨hp, hk, hc⟩ := type n q r hq hr
              have hqm := mem_runs_of_argAt hq
              have hrm := mem_runs_of_argAt hr
              have hs : q.shape.normalize = r.shape.normalize :=
                Shape.normalize_congr hk hc fun l m hl hm =>
                  ih n q r l m hq hr hl hm (ha.elements hqm hl) (hb.elements hrm hm)
              simp only [Option.map_some, Run.cell, Cell.normalize, hp, hs]

theorem alike_of_normalize_eq {a b : ArgList} (ha : a.WellFormed) (hb : b.WellFormed)
    (h : a.normalize = b.normalize) : a.Alike b := by
  induction ha generalizing b with
  | @intro a here elements ih =>
      have ha : a.WellFormed := .intro here elements
      have hcell : ∀ n, (a.argAt n).map (fun r => r.cell.normalize) =
          (b.argAt n).map (fun r => r.cell.normalize) := by
        intro n
        have := cellAt_normalize ha.positive n
        rw [h, cellAt_normalize hb.positive, cellAt, cellAt, Option.map_map, Option.map_map]
          at this
        exact this.symm
      have hrun : ∀ {n q r}, a.argAt n = some q → b.argAt n = some r →
          q.presence = r.presence ∧ q.shape.normalize = r.shape.normalize := by
        intro n q r hq hr
        have := hcell n
        rw [hq, hr] at this
        simpa [Run.cell, Cell.normalize] using this
      refine .intro (fun n => ?_) (fun n q r hq hr => ?_) fun n q r l m hq hr hl hm => ?_
      · rw [← Option.map_eq_none_iff, hcell n, Option.map_eq_none_iff]
      · obtain ⟨hp, hs⟩ := hrun hq hr
        have hk := congrArg Shape.kinds hs
        have hc := congrArg Shape.isCompound hs
        rw [Shape.kinds_normalize, Shape.kinds_normalize] at hk
        rw [Shape.isCompound_normalize, Shape.isCompound_normalize] at hc
        exact ⟨hp, hk, hc⟩
      · have he := congrArg Shape.elements? (hrun hq hr).2
        rw [Shape.elements?_normalize, Shape.elements?_normalize, hl, hm] at he
        exact ih q (mem_runs_of_argAt hq) l hl (hb.elements (mem_runs_of_argAt hr) hm)
          (Option.some.inj he)

theorem normalize_eq_iff {a b : ArgList} (ha : a.WellFormed) (hb : b.WellFormed) :
    a.normalize = b.normalize ↔ a.Alike b :=
  ⟨alike_of_normalize_eq ha hb, fun h => h.normalize_eq ha hb⟩

theorem normalize_normalize {l : ArgList} (h : l.WellFormed) :
    l.normalize.normalize = l.normalize := by
  induction h with
  | @intro l here elements ih =>
      have hl : l.Positive := WellFormed.positive (.intro here elements)
      have hn := (normal_normalize hl).positive
      refine normalize_ext hn hl fun n => ?_
      rw [cellAt_normalize hl, Option.map_map, cellAt, Option.map_map, Option.map_map]
      cases hr : l.argAt n with
      | none => rfl
      | some r =>
          have hs : r.shape.normalize.normalize = r.shape.normalize := by
            refine Shape.normalize_congr (Shape.kinds_normalize _) (Shape.isCompound_normalize _)
              fun m m' hm hm' => ?_
            rw [Shape.elements?_normalize, hm', Option.map_some, Option.some.injEq] at hm
            rw [← hm]
            exact ih r (mem_runs_of_argAt hr) m' hm'
          simp only [Option.map_some, Function.comp_apply, Cell.normalize, Run.cell, hs]

/-- In a list in normal form, element lists are in normal form. -/
theorem shape_normalize_eq {l : ArgList} (hl : l.Positive) (hn : l.normalize = l) {r : Run}
    (hr : r ∈ l.runs) : r.shape.normalize = r.shape := by
  obtain ⟨k, hk⟩ := exists_cellAt_of_mem_runs hl hr
  have h := cellAt_normalize hl k
  rw [hn, hk, Option.map_some, Option.some.injEq] at h
  exact (congrArg Cell.shape h).symm

/-- The normal form of a well-formed list constrains the same arguments in the same way, with
element lists in normal form, and it is canonical: alike lists, and only those, share it. -/
theorem normalize_canonical {a : ArgList} (ha : a.WellFormed) :
    (∀ n, (a.normalize.argAt n = none ↔ a.argAt n = none) ∧
      ∀ q r, a.argAt n = some q → a.normalize.argAt n = some r →
        r.presence = q.presence ∧ r.shape.kinds = q.shape.kinds ∧
          r.shape.elements? = q.shape.elements?.map normalize) ∧
    ∀ b : ArgList, b.WellFormed → (a.normalize = b.normalize ↔ a.Alike b) := by
  refine ⟨fun n => ?_, fun b hb => normalize_eq_iff ha hb⟩
  have h := cellAt_normalize ha.positive n
  simp only [cellAt, Option.map_map] at h
  constructor
  · rw [← Option.map_eq_none_iff (f := Run.cell), h, Option.map_eq_none_iff]
  · intro q r hq hr
    rw [hq, hr, Option.map_some, Option.map_some, Option.some.injEq] at h
    have hp : r.presence = q.presence := congrArg Cell.presence h
    have hs : r.shape = q.shape.normalize := congrArg Cell.shape h
    rw [hs]
    exact ⟨hp, Shape.kinds_normalize _, Shape.elements?_normalize _⟩

/-- A loop that is written out twice and starts two arguments late. -/
theorem normalize_canonical_turns :
    let c : Run := ⟨1, .required, .plain (.ofList [.char])⟩
    let s : Run := ⟨1, .optional, .compound .sequences [c, c] []⟩
    let t : Run := ⟨1, .optional, .compound .sequences [c.withCount 2] []⟩
    ArgList.WellFormed ⟨[c, s], [c, s, c, s]⟩ ∧ ArgList.WellFormed ⟨[], [c, t]⟩ ∧
      (normalize ⟨[c, s], [c, s, c, s]⟩ = normalize ⟨[], [c, t]⟩ ↔
        Alike ⟨[c, s], [c, s, c, s]⟩ ⟨[], [c, t]⟩) := by
  refine ⟨?_, ?_, (normalize_canonical ?_).2 _ ?_⟩ <;> decide

end ArgList

end CatalogLint
