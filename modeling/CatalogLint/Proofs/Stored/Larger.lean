import CatalogLint.Proofs.Stored.Normal
import CatalogLint.Stored.Intersection

/-!
# Results in a larger word

Words differ in where computations stop, not in what they find: a result in one word is the result
in every larger one (`Word.Within`), for normal forms and for intersections
(`StoredList.refines_normalize`, `StoredList.refines_intersect`).
-/
namespace CatalogLint

/-- All numbers of the first word are numbers of the second one. -/
def Word.Within (w v : Word) : Prop :=
  ∀ n, w.Fits n → v.Fits n

theorem Word.within_unbounded (w : Word) : w.Within .unbounded :=
  fun n _ => fits_unbounded n

namespace Checked
variable {α β : Type}

/-- The second computation has every result of the first one. -/
def Refines (x y : Checked α) : Prop :=
  ∀ r, x = .ok r → y = .ok r

namespace Refines
variable {x y x' y' : Checked α} {f g : α → Checked β}

theorem refl (x : Checked α) : x.Refines x :=
  fun _ h => h

theorem bind (h : x.Refines y) (hf : ∀ a, (f a).Refines (g a)) :
    Refines (x >>= f) (y >>= g) := fun r hr => by
  obtain ⟨a, ha, hr⟩ := bind_eq_ok.mp hr
  exact bind_eq_ok.mpr ⟨a, h a ha, hf a r hr⟩

/-- The same computation first, with no word in it. -/
theorem after (x : Checked α) (hf : ∀ a, (f a).Refines (g a)) : Refines (x >>= f) (x >>= g) :=
  (refl x).bind hf

theorem ite {p : Prop} [Decidable p] (h : x.Refines y) (h' : x'.Refines y') :
    Refines (if p then x else x') (if p then y else y') := by
  split
  · exact h
  · exact h'

end Refines

end Checked

variable {w v : Word} (hw : w.Within v)
include hw

theorem Word.refines_add (m n : ℕ) : (w.add m n).Refines (v.add m n) := fun r h => by
  have hfits := fits_of_add_eq h
  rw [eq_of_add_eq h] at hfits ⊢
  exact add_eq (hw _ hfits)

theorem Word.refines_mul (m n : ℕ) : (w.mul m n).Refines (v.mul m n) := fun r h => by
  unfold mul at h
  split at h
  · rw [← h]
    exact mul_eq (hw _ ‹_›)
  · cases h

namespace StoredSegment

theorem refines_push (s : StoredSegment) (r : StoredRun) :
    (s.push w r).Refines (s.push v r) :=
  (Word.refines_add hw _ _).bind fun _ => .refl _

theorem refines_pushAll (s : StoredSegment) (runs : List StoredRun) :
    (s.pushAll w runs).Refines (s.pushAll v runs) := by
  induction runs generalizing s with
  | nil => exact .refl _
  | cons r runs ih => exact (refines_push hw s r).bind ih

theorem refines_pushTurns (loop : List StoredRun) (k : ℕ) (s : StoredSegment) :
    (pushTurns w loop k s).Refines (pushTurns v loop k s) := by
  induction k generalizing s with
  | zero => exact .refl _
  | succ k ih => exact (refines_pushAll hw s loop).bind ih

theorem refines_mergeInto (last : StoredRun) (runs : List StoredRun) :
    (mergeInto w last runs).Refines (mergeInto v last runs) := by
  induction runs generalizing last with
  | nil => exact .refl _
  | cons r runs ih =>
      refine .ite ?_ ((ih r).bind fun _ => .refl _)
      exact (Word.refines_add hw _ _).bind fun count => ih (last.withCount count)

theorem refines_coalesce (s : StoredSegment) : (s.coalesce w).Refines (s.coalesce v) := by
  rw [coalesce, coalesce]
  cases s.runs with
  | nil => exact .refl _
  | cons r runs => exact (refines_mergeInto hw r runs).bind fun _ => .refl _

end StoredSegment

namespace StoredList

/-- The lists that fit a word fit every larger one. -/
theorem refines_verify (l : StoredList) : (l.verify w).Refines (l.verify v) := by
  rintro ⟨⟩ h
  obtain ⟨m, hm, rfl⟩ := verify_iff_storable.mp h
  exact (hm.mono hw).verify

section Surgery

theorem refines_unfold (l : StoredList) (m : ℕ) : (l.unfold w m).Refines (l.unfold v m) :=
  .ite (.refl _) ((Word.refines_mul hw _ _).bind fun _ => .refl _)

theorem refines_pushTo (s : StoredSegment) (loop : List StoredRun) (index offset : ℕ) :
    (pushTo w s loop index offset).Refines (pushTo v s loop index offset) := by
  refine .after _ fun cut => ?_
  refine (s.refines_pushAll hw cut.1).bind fun s => .ite ?_ (.refl _)
  exact .after _ fun r => s.refines_push hw _

theorem refines_rotateRuns (l : StoredList) (m : ℕ) :
    (l.rotateRuns w m).Refines (l.rotateRuns v m) := by
  refine .after _ fun missing => .after _ fun turns => ?_
  refine .after _ fun start => .after _ fun found => ?_
  refine (StoredSegment.refines_pushTurns hw _ _ _).bind fun initial => ?_
  exact (refines_pushTo hw _ _ _ _).bind fun _ => .refl _

theorem refines_rotate (l : StoredList) (m : ℕ) : (l.rotate w m).Refines (l.rotate v m) := by
  refine .ite (.refl _) (.after _ fun _ => .ite ?_ ?_)
  · exact .after _ fun r => .after _ fun missing =>
      (StoredSegment.refines_push hw _ _).bind fun _ => .refl _
  · exact (refines_rotateRuns hw l m).bind fun l => (refines_verify hw l).bind fun _ => .refl _

theorem refines_appendLoop (l : StoredList) : (l.appendLoop w).Refines (l.appendLoop v) :=
  (StoredSegment.refines_pushAll hw _ _).bind fun _ => .refl _

end Surgery

section Normalizing

theorem refines_recurs (runs : List StoredRun) (extra m i : ℕ) :
    (recurs w runs extra m i).Refines (recurs v runs extra m i) := by
  refine .after _ fun r => (Word.refines_add hw _ _).bind fun next => .after _ fun q => ?_
  exact (Word.refines_add hw _ _).bind fun _ => .refl _

theorem refines_recurAll (runs : List StoredRun) (extra m : ℕ) (indices : List ℕ) :
    (recurAll w runs extra m indices).Refines (recurAll v runs extra m indices) := by
  induction indices with
  | nil => exact .refl _
  | cons i indices ih => exact (refines_recurs hw runs extra m i).bind fun _ => .ite ih (.refl _)

theorem refines_findPeriod (runs : List StoredRun) (extra n : ℕ) (candidates : List ℕ) :
    (findPeriod w runs extra n candidates).Refines (findPeriod v runs extra n candidates) := by
  induction candidates with
  | nil => exact .refl _
  | cons m candidates ih =>
      refine .after _ fun rest => .ite (.after _ fun last => ?_) ih
      exact (refines_recurAll hw runs extra m _).bind fun _ => .ite (.refl _) ih

theorem refines_shortenTo (loop : StoredSegment) (n m : ℕ) :
    (shortenTo w loop n m).Refines (shortenTo v loop n m) := by
  refine .after _ fun wrapped => ?_
  exact (Word.refines_add hw _ _).bind fun kept => .refl _

theorem refines_shortenRuns (loop : StoredSegment) :
    (shortenRuns w loop).Refines (shortenRuns v loop) := by
  refine .after _ fun last => .after _ fun first => .after _ fun final => .after _ fun half => ?_
  refine (refines_findPeriod hw _ _ _ _).bind fun period => ?_
  cases period with
  | none => exact .refl _
  | some m => exact refines_shortenTo hw loop _ m

theorem refines_shortenLoop (loop : StoredSegment) :
    (shortenLoop w loop).Refines (shortenLoop v loop) :=
  .ite (.refl _) ((refines_shortenRuns hw loop).bind fun _ => .refl _)

theorem refines_turnBack (loop : List StoredRun) (moved : ℕ) :
    (turnBack w loop moved).Refines (turnBack v loop moved) := by
  refine .after _ fun first => .after _ fun index => .after _ fun last => .ite ?_ (.refl _)
  exact (Word.refines_add hw _ _).bind fun _ => .refl _

theorem refines_absorb (steps : ℕ) (l : StoredList) :
    (absorb w steps l).Refines (absorb v steps l) := by
  induction steps generalizing l with
  | zero => exact .refl _
  | succ steps ih =>
      rw [absorb, absorb]
      split
      · refine .ite ?_ (.refl _)
        refine (refines_turnBack hw _ _).bind fun loop => .after _ fun left => ?_
        exact .after _ fun length => ih _
      · exact .refl _

theorem refines_rollIn (l : StoredList) : (rollIn w l).Refines (rollIn v l) :=
  .ite (.refl _) (refines_absorb hw _ l)

theorem refines_normalizeOutermost (l : StoredList) :
    (l.normalizeOutermost w).Refines (l.normalizeOutermost v) := by
  refine (l.initial.refines_coalesce hw).bind fun initial => ?_
  refine (l.repeated.refines_coalesce hw).bind fun repeated => ?_
  refine (refines_shortenLoop hw repeated).bind fun repeated => ?_
  exact (refines_rollIn hw _).bind fun l => (refines_verify hw l).bind fun _ => .refl _

/-- What is normalized has been verified before, so its normal form is known in both words. -/
theorem refines_normalize (l : StoredList) : (l.normalize w).Refines (l.normalize v) := by
  intro r h
  have hverify : l.verify w = .ok () := by
    obtain ⟨initial, repeated⟩ := l
    rw [normalize] at h
    obtain ⟨⟨⟩, hverify, -⟩ := Checked.bind_eq_ok.mp h
    exact hverify
  obtain ⟨m, hm, rfl⟩ := verify_iff_storable.mp hverify
  rw [ArgList.normalize_stored hm] at h
  rwa [ArgList.normalize_stored (hm.mono hw)]

end Normalizing

end StoredList

section Intersecting
variable {lists lists' : StoredList → StoredList → Checked (Option StoredList)}
  (hlists : ∀ l m, (lists l m).Refines (lists' l m))
include hlists

omit hw in
theorem StoredShape.refines_meetWith (s t : StoredShape) :
    (s.meetWith lists t).Refines (s.meetWith lists' t) := by
  refine .ite (.refl _) (.ite (.refl _) (.ite (.ite ?_ (.refl _)) (.refl _)))
  cases s.elements with
  | none => exact .refl _
  | some l =>
      cases t.elements with
      | none => exact .refl _
      | some m => exact (hlists l m).bind fun _ => .refl _

omit hw in
theorem StoredRun.refines_meetWith (a b : StoredRun) :
    (a.meetWith lists b).Refines (a.meetWith lists' b) :=
  (a.shape.refines_meetWith hlists b.shape).bind fun _ => .refl _

namespace StoredSegment

omit hlists in
theorem Ahead.refines_advance (a : Ahead) (count : ℕ) :
    (a.advance w count).Refines (a.advance v count) :=
  .after _ fun _ => .ite ((Word.refines_add hw _ _).bind fun _ => .refl _) (.refl _)

theorem refines_walk (steps : ℕ) (a b : Ahead) (common : StoredSegment) :
    (walk w lists steps a b common).Refines (walk v lists' steps a b common) := by
  induction steps generalizing a b common with
  | zero => exact .refl _
  | succ steps ih =>
      rw [walk, walk]
      split
      · refine (StoredRun.refines_meetWith hlists _ _).bind fun found => ?_
        cases found with
        | error presence => exact .refl _
        | ok run =>
            refine (refines_push hw common _).bind fun common => ?_
            refine (a.refines_advance hw _).bind fun a => ?_
            exact (b.refines_advance hw _).bind fun b => ih a b common
      · exact .refl _

theorem refines_walkAll (s t common : StoredSegment) :
    (walkAll w lists s t common).Refines (walkAll v lists' s t common) :=
  refines_walk hw hlists _ _ _ _

end StoredSegment

namespace StoredList

omit hlists in
theorem refines_alignLoops (a b : StoredList) :
    (alignLoops w a b).Refines (alignLoops v a b) := by
  refine .ite (.after _ fun i => (refines_unfold hw a i).bind fun a => ?_) (.refl _)
  exact .after _ fun j => (refines_unfold hw b j).bind fun b => .refl _

omit hlists in
theorem refines_alignInitials (a b : StoredList) :
    (alignInitials w a b).Refines (alignInitials v a b) :=
  (refines_rotate hw a _).bind fun _ => (refines_rotate hw b _).bind fun _ => .refl _

theorem refines_walkLists (a b : StoredList) :
    (walkLists w lists a b).Refines (walkLists v lists' a b) := by
  refine (StoredSegment.refines_walkAll hw hlists _ _ _).bind fun found => ?_
  cases found with
  | contradiction c p => exact .refl _
  | exhausted c x y =>
      cases a.isFinite with
      | true => cases b.isFinite <;> exact .refl _
      | false =>
          cases b.isFinite with
          | true => exact .refl _
          | false =>
              refine (StoredSegment.refines_walkAll hw hlists _ _ _).bind fun loop => ?_
              cases loop with
              | contradiction d p => exact (refines_appendLoop hw _).bind fun _ => .refl _
              | exhausted d _ _ => exact .refl _

theorem refines_intersectWith (a b : StoredList) :
    (intersectWith w lists a b).Refines (intersectWith v lists' a b) := by
  refine (refines_verify hw a).bind fun _ => (refines_verify hw b).bind fun _ => ?_
  refine (refines_alignLoops hw a b).bind fun loops => ?_
  refine (refines_alignInitials hw loops.1 loops.2).bind fun aligned => ?_
  refine (refines_walkLists hw hlists aligned.1 aligned.2).bind fun common => ?_
  cases common with
  | none => exact .refl _
  | some l => exact (refines_normalizeOutermost hw l).bind fun _ => .refl _

end StoredList

end Intersecting

namespace StoredList

theorem refines_intersectTo (d : ℕ) (a b : StoredList) :
    (intersectTo w d a b).Refines (intersectTo v d a b) := by
  induction d generalizing a b with
  | zero => exact refines_intersectWith hw (fun _ _ => .refl _) a b
  | succ d ih => exact refines_intersectWith hw ih a b

theorem refines_intersect (a b : StoredList) :
    (a.intersect w b).Refines (a.intersect v b) :=
  refines_intersectTo hw _ a b

end StoredList

end CatalogLint
