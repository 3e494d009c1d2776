import CatalogLint.Proofs.ArgList.LowerBound
import CatalogLint.Proofs.Stored.Intersection
import CatalogLint.Proofs.Stored.Larger
import CatalogLint.Stored.Comparison

/-!
# Intersections and comparisons that fit a word

Whatever the word is, an intersection of stored lists that has a result accepts what both lists
accept, and it has one if the lists fit together (`StoredList.intersect_exact`). The laws of
intersections hold as far as that (`intersect_swap`, `normalize_of_intersect`,
`intersect_unconstrained_stored`), and so does what comparisons say of an intersection
(`StoredList.agrees_subset_intersect`). All of this comes from the lists without bounds: a result in
a word is the result in the unbounded one.
-/
namespace CatalogLint

variable {w v : Word}

namespace ArgList
variable {a b : ArgList} {o : Option StoredList}

theorem stored_inj : a.stored = b.stored ↔ a = b :=
  ⟨fun h => by rw [← a.erase_stored, h, b.erase_stored], fun h => by rw [h]⟩

theorem isEmpty_stored (l : ArgList) : l.stored.isEmpty = l.isEmpty := by
  simp [StoredList.isEmpty, isEmpty]

theorem firstPresence_stored (l : ArgList) : l.stored.firstPresence = l.firstPresence := by
  rw [firstPresence, firstPresence_append]
  simp [StoredList.firstPresence, Segment.firstPresence, Option.map_or, Function.comp_def]

theorem intersectEmpty_stored (l : ArgList) :
    l.stored.intersectEmpty = l.intersectEmpty.map stored := by
  rw [StoredList.intersectEmpty, intersectEmpty, firstPresence_stored]
  split_ifs <;> rfl

/-- What there is to compare with can be stored. -/
theorem common_stored (ha : a.Storable w) (hb : b.Storable w) (h : FitTogether w a b) :
    a.stored.common w b.stored =
        .ok ((if b.isEmpty then a.intersectEmpty else a.intersect b).map stored) ∧
      ∀ l ∈ if b.isEmpty then a.intersectEmpty else a.intersect b, l.Storable w := by
  rw [StoredList.common, isEmpty_stored]
  by_cases hempty : b.isEmpty = true
  · simp only [hempty, if_true]
    refine ⟨by rw [intersectEmpty_stored]; rfl, fun l hl => ?_⟩
    rw [intersectEmpty] at hl
    split_ifs at hl
    · cases hl
    · cases hl
      exact WellFormed.storable_of_verify (by decide) rfl
  · simp only [hempty]
    exact ⟨intersect_stored ha hb h, fun l hl => ha.intersect hb h hl⟩

/-- Stored lists are compared as lists are. -/
theorem agrees_stored (ha : a.Storable w) (hb : b.Storable w) (h : FitTogether w a b)
    (agreement : Agreement) :
    a.stored.agrees w agreement b.stored = .ok (agrees agreement a b) := by
  cases agreement with
  | equivalent => simp [StoredList.agrees, agrees, stored_inj]
  | subset =>
      obtain ⟨hcommon, hstorable⟩ := common_stored ha hb h
      rw [StoredList.agrees, hcommon, Checked.ok_bind, agrees]
      cases hl : (if b.isEmpty then a.intersectEmpty else a.intersect b) with
      | none => rfl
      | some l =>
          dsimp only [Option.map_some]
          rw [normalize_stored (hstorable l hl), Checked.ok_bind]
          simp [stored_inj]

theorem WellFormed.fitTogether (ha : a.WellFormed) (hb : b.WellFormed) :
    FitTogether .unbounded a b :=
  ha.storable.fitTogether hb.storable Word.covers_unbounded

/-- A result is the intersection of the lists, whatever the word is. -/
theorem WellFormed.eq_of_intersect (ha : a.WellFormed) (hb : b.WellFormed)
    (h : a.stored.intersect w b.stored = .ok o) : o = (a.intersect b).map stored := by
  have hunbounded := StoredList.refines_intersect w.within_unbounded _ _ o h
  rw [intersect_stored ha.storable hb.storable (ha.fitTogether hb)] at hunbounded
  exact (Except.ok.inj hunbounded).symm

end ArgList

namespace StoredList

theorem refines_agrees (hw : w.Within v) (agreement : Agreement) (a b : StoredList) :
    (a.agrees w agreement b).Refines (a.agrees v agreement b) := by
  cases agreement with
  | equivalent => exact .refl _
  | subset =>
      have hcommon : (a.common w b).Refines (a.common v b) :=
        .ite (.refl _) (refines_intersect hw a b)
      refine hcommon.bind fun common => ?_
      cases common with
      | none => exact .refl _
      | some l => exact (refines_normalize hw l).bind fun _ => .refl _

theorem verify_of_normalizeOutermost {l r : StoredList} (h : l.normalizeOutermost w = .ok r) :
    r.verify w = .ok () := by
  simp only [normalizeOutermost, Checked.bind_eq_ok] at h
  obtain ⟨-, -, -, -, -, -, l, -, ⟨⟩, hverify, hr⟩ := h
  cases hr
  exact hverify

theorem verify_of_intersectWith {lists : StoredList → StoredList → Checked (Option StoredList)}
    {a b : StoredList} {o : Option StoredList} (h : intersectWith w lists a b = .ok o) :
    a.verify w = .ok () ∧ b.verify w = .ok () ∧ ∀ r ∈ o, r.verify w = .ok () := by
  simp only [intersectWith, Checked.bind_eq_ok] at h
  obtain ⟨⟨⟩, ha, ⟨⟩, hb, -, -, -, -, common, -, h⟩ := h
  refine ⟨ha, hb, fun r hr => ?_⟩
  cases common with
  | none =>
      cases h
      cases hr
  | some l =>
      obtain ⟨m, hm, h⟩ := Checked.bind_eq_ok.mp h
      cases h
      cases hr
      exact verify_of_normalizeOutermost hm

/-- A result has been verified, as both lists have. -/
theorem verify_of_intersect {a b : StoredList} {o : Option StoredList}
    (h : a.intersect w b = .ok o) :
    a.verify w = .ok () ∧ b.verify w = .ok () ∧ ∀ r ∈ o, r.verify w = .ok () := by
  rw [intersect] at h
  cases hd : min a.depth b.depth with
  | zero =>
      rw [hd] at h
      exact verify_of_intersectWith h
  | succ d =>
      rw [hd] at h
      exact verify_of_intersectWith h

variable {a b : ArgList} {r : StoredList}

/-- What results from two lists is the stored form of their intersection. -/
theorem exists_of_intersect (ha : a.WellFormed) (hb : b.WellFormed)
    (h : a.stored.intersect w b.stored = .ok (some r)) :
    ∃ l : ArgList, l.stored = r ∧ a.intersect b = some l ∧ l.Storable w := by
  obtain ⟨l, hl, hr⟩ := Option.map_eq_some_iff.mp (ha.eq_of_intersect hb h).symm
  obtain ⟨-, -, hverify⟩ := verify_of_intersect h
  refine ⟨l, hr, hl, (ha.intersect hb hl).storable_of_verify ?_⟩
  rw [hr]
  exact hverify r rfl

/-- Whatever the word is, a comparison that has a result has that of the lists. -/
theorem eq_of_agrees_stored (ha : a.WellFormed) (hb : b.WellFormed) {agreement : Agreement}
    {x : Bool} (h : a.stored.agrees w agreement b.stored = .ok x) :
    x = ArgList.agrees agreement a b := by
  have hunbounded := refines_agrees w.within_unbounded agreement _ _ x h
  rw [ArgList.agrees_stored ha.storable hb.storable (ha.fitTogether hb)] at hunbounded
  exact (Except.ok.inj hunbounded).symm

/-! ### What an intersection accepts -/

/-- Lists that fit together have an intersection. A result accepts exactly the arguments that both
lists accept; where there is none, no arguments satisfy both. -/
theorem intersect_exact (w : Word) (ha : a.WellFormed) (hb : b.WellFormed) (ha' : a.Elementwise)
    (hb' : b.Elementwise) :
    (a.Storable w → b.Storable w → ArgList.FitTogether w a b →
      ∃ o, a.stored.intersect w b.stored = .ok o) ∧
    (∀ r, a.stored.intersect w b.stored = .ok (some r) →
      ∃ l : ArgList, l.stored = r ∧ l.WellFormed ∧
        ∀ xs, l.Accepts xs ↔ a.Accepts xs ∧ b.Accepts xs) ∧
    (a.stored.intersect w b.stored = .ok none → ∀ xs, ¬ (a.Accepts xs ∧ b.Accepts xs)) := by
  have haccepts := ArgList.accepts_intersect ha hb ha' hb'
  refine ⟨fun has hbs hfit => ⟨_, ArgList.intersect_stored has hbs hfit⟩, fun r h => ?_,
    fun h xs => ?_⟩
  · obtain ⟨l, hr, hl, hstorable⟩ := exists_of_intersect ha hb h
    refine ⟨l, hr, hstorable.wellFormed, fun xs => ?_⟩
    rw [← haccepts xs, hl]
    simp
  · have hnone : a.intersect b = none := by
      simpa using (ha.eq_of_intersect hb h).symm
    rw [← haccepts xs, hnone]
    simp

/-- Loops of two and of three arguments, with elements that meet and a place where the integers of
one list meet the sequences of the other. -/
theorem intersect_exact_loops :
    let i : Run := ⟨1, .required, .plain (.ofList [.integer])⟩
    let c : Run := ⟨1, .optional, .plain (.ofList [.char])⟩
    let s : Run := ⟨1, .optional, .compound .sequences [⟨1, .required, .any⟩] []⟩
    let t : Run := ⟨1, .required, .compound .sequences [i] []⟩
    let a : ArgList := ⟨[], [s, c]⟩
    let b : ArgList := ⟨[t], [c, i, c]⟩
    (a.Storable .bits64 ∧ b.Storable .bits64 ∧ ArgList.FitTogether .bits64 a b ∧
      a.Elementwise ∧ b.Elementwise) ∧
      (∃ o, a.stored.intersect .bits64 b.stored = .ok o) ∧
      a.stored.intersect .bits64 b.stored = .ok (some (ArgList.finite [t]).stored) ∧
        ∀ xs, (ArgList.finite [t]).Accepts xs ↔ a.Accepts xs ∧ b.Accepts xs := by
  intro i c s t a b
  have hcovers := Word.bits64_covers
  have ha : a.Storable ⟨some (UInt32.size - 1)⟩ :=
    ArgList.WellFormed.storable_of_verify (by decide) (by decide +kernel)
  have hb : b.Storable ⟨some (UInt32.size - 1)⟩ :=
    ArgList.WellFormed.storable_of_verify (by decide) (by decide +kernel)
  have has : a.Storable .bits64 := ha.mono fun _ => hcovers.fits
  have hbs : b.Storable .bits64 := hb.mono fun _ => hcovers.fits
  have hfit : ArgList.FitTogether .bits64 a b := ha.fitTogether hb hcovers
  have hea : a.Elementwise := by decide
  have heb : b.Elementwise := by decide
  obtain ⟨hresult, hexact, -⟩ := intersect_exact .bits64 has.wellFormed hbs.wellFormed hea heb
  have hcommon : a.stored.intersect .bits64 b.stored =
      .ok (some (ArgList.finite [t]).stored) := by decide +kernel
  obtain ⟨l, hl, -, haccepts⟩ := hexact _ hcommon
  obtain rfl := ArgList.stored_inj.mp hl
  exact ⟨⟨has, hbs, hfit, hea, heb⟩, hresult has hbs hfit, hcommon, haccepts⟩

/-- The common period of these loops is no number of 64 bits. There is no result then, and no wrong
one either. -/
example :
    let y : Run := ⟨1, .optional, .any⟩
    let k : Shape := .plain (.ofList [.integer])
    let a : ArgList := ⟨[], [y, ⟨3 * 2 ^ 62 - 1, .optional, k⟩]⟩
    let b : ArgList := ⟨[], [y, ⟨2 ^ 63 - 1, .optional, k⟩]⟩
    a.stored.intersect .bits64 b.stored = .error .overflow ∧
      (a.stored.intersect .unbounded b.stored).isOk = true := by
  decide +kernel

/-! ### Laws -/

theorem intersect_swap (ha : a.Storable w) (hb : b.Storable w)
    (h : ArgList.FitTogether w a b) :
    a.stored.intersect w b.stored = b.stored.intersect w a.stored := by
  rw [ArgList.intersect_stored ha hb h, ArgList.intersect_stored hb ha h.symm,
    ArgList.intersect_comm ha.wellFormed hb.wellFormed]

/-- A result is in normal form. -/
theorem normalize_of_intersect (ha : a.WellFormed) (hb : b.WellFormed) (ha' : a.ElementsNormal)
    (hb' : b.ElementsNormal) (h : a.stored.intersect w b.stored = .ok (some r)) :
    r.normalize w = .ok r := by
  obtain ⟨l, rfl, hl, hstorable⟩ := exists_of_intersect ha hb h
  rw [ArgList.normalize_stored hstorable, ArgList.normalize_intersect ha hb ha' hb' hl]

/-- The list of any arguments changes nothing but the form of a list. -/
theorem intersect_unconstrained_stored (ha : a.Storable w) (ha' : a.ElementsNormal)
    (hone : w.Fits 1) (h : w.Fits (Segment.extent a.initial + Segment.extent a.repeated)) :
    a.stored.intersect w unconstrained = .ok (some a.normalize.stored) := by
  have hnone : ∀ r ∈ ArgList.unconstrained.runs, r.shape.elements? = none := by decide
  have hunconstrained : ArgList.unconstrained.Storable w := by
    refine .intro ArgList.wellFormed_unconstrained.positive w.fits_zero hone (by decide) ?_
    intro r hr m hm
    rw [hnone r hr] at hm
    cases hm
  have hextent : a.sharedExtent .unconstrained =
      Segment.extent a.initial + Segment.extent a.repeated := by
    simp [ArgList.sharedExtent, ArgList.unconstrained, Segment.extent]
  have hfit : ArgList.FitTogether w a .unconstrained := by
    refine .intro (hextent ▸ h) fun q _ r hr l m _ hm => ?_
    rw [hnone r hr] at hm
    cases hm
  have hcommon := ArgList.intersect_stored ha hunconstrained hfit
  rwa [ArgList.intersect_unconstrained ha.wellFormed ha'] at hcommon

/-! ### Intersections as subsets -/

/-- An intersection is a subset of the lists that it comes from exactly when all its compound
shapes are those of sequences and of tables. The comparison with a list that it fits together with
has a result. -/
theorem agrees_subset_intersect (ha : a.WellFormed) (hb : b.WellFormed) (ha' : a.Elementwise)
    (hb' : b.Elementwise) (han : a.normalize = a) (hbn : b.normalize = b)
    (h : a.stored.intersect w b.stored = .ok (some r)) :
    ∃ l : ArgList, l.stored = r ∧
      (ArgList.FitTogether w a l → ∃ x, a.stored.agrees w .subset r = .ok x) ∧
      (ArgList.FitTogether w b l → ∃ y, b.stored.agrees w .subset r = .ok y) ∧
      ∀ x y, a.stored.agrees w .subset r = .ok x → b.stored.agrees w .subset r = .ok y →
        ((x = true ∧ y = true) ↔ l.Elementwise) := by
  obtain ⟨l, rfl, hl, hstorable⟩ := exists_of_intersect ha hb h
  obtain ⟨hva, hvb, -⟩ := verify_of_intersect h
  have has := ha.storable_of_verify hva
  have hbs := hb.storable_of_verify hvb
  have hwf := hstorable.wellFormed
  refine ⟨l, rfl, fun hfit => ⟨_, ArgList.agrees_stored has hstorable hfit _⟩,
    fun hfit => ⟨_, ArgList.agrees_stored hbs hstorable hfit _⟩, fun x y hx hy => ?_⟩
  obtain rfl := eq_of_agrees_stored ha hwf hx
  obtain rfl := eq_of_agrees_stored hb hwf hy
  exact ArgList.agrees_subset_iff_elementwise ha hb ha' hb' han hbn hl

/-- Every other argument is a sequence of characters in the first list; the second one ends in a
table or a sequence that says nothing of its elements. -/
theorem agrees_subset_intersect_sequences :
    let c : Run := ⟨2, .required, .plain (.ofList [.char])⟩
    let k : Kinds := .ofList [.array, .associative, .range]
    let a : ArgList := ⟨[], [⟨1, .optional, .any⟩, ⟨1, .required, .compound .sequences [c] []⟩]⟩
    let b : ArgList := .finite [⟨1, .required, .any⟩, ⟨1, .optional, .plain k⟩]
    let r : ArgList := .finite [⟨1, .required, .any⟩, ⟨1, .required, .compound .sequences [c] []⟩]
    (a.WellFormed ∧ b.WellFormed ∧ a.Elementwise ∧ b.Elementwise ∧ a.normalize = a ∧
      b.normalize = b ∧ a.stored.intersect .bits64 b.stored = .ok (some r.stored)) ∧
      (ArgList.FitTogether .bits64 a r ∧ ArgList.FitTogether .bits64 b r) ∧
      ∃ x y, a.stored.agrees .bits64 .subset r.stored = .ok x ∧
        b.stored.agrees .bits64 .subset r.stored = .ok y ∧
        ((x = true ∧ y = true) ↔ r.Elementwise) := by
  intro c k a b r
  have hcovers := Word.bits64_covers
  have ha : a.Storable ⟨some (UInt32.size - 1)⟩ :=
    ArgList.WellFormed.storable_of_verify (by decide) (by decide +kernel)
  have hb : b.Storable ⟨some (UInt32.size - 1)⟩ :=
    ArgList.WellFormed.storable_of_verify (by decide) (by decide +kernel)
  have hr : r.Storable ⟨some (UInt32.size - 1)⟩ :=
    ArgList.WellFormed.storable_of_verify (by decide) (by decide +kernel)
  have hgiven : a.WellFormed ∧ b.WellFormed ∧ a.Elementwise ∧ b.Elementwise ∧ a.normalize = a ∧
      b.normalize = b ∧ a.stored.intersect .bits64 b.stored = .ok (some r.stored) := by
    decide +kernel
  obtain ⟨hwa, hwb, hea, heb, han, hbn, hcommon⟩ := hgiven
  obtain ⟨l, hl, hleft, hright, hsubset⟩ :=
    agrees_subset_intersect hwa hwb hea heb han hbn hcommon
  obtain rfl := ArgList.stored_inj.mp hl
  have har := ha.fitTogether hr hcovers
  have hbr := hb.fitTogether hr hcovers
  obtain ⟨x, hx⟩ := hleft har
  obtain ⟨y, hy⟩ := hright hbr
  exact ⟨⟨hwa, hwb, hea, heb, han, hbn, hcommon⟩, ⟨har, hbr⟩, x, y, hx, hy, hsubset x y hx hy⟩

/-- Arrays of at least one element are no subset of the sequences of at least one element: their
list is the intersection with that of arrays, and does not meet the list of sequences again. -/
theorem not_agrees_subset_arrays :
    let e : Run := ⟨1, .required, .any⟩
    let a : ArgList := .finite [⟨1, .required, .compound .sequences [e] []⟩]
    let b : ArgList := .finite [⟨1, .required, .plain (.ofList [.array])⟩]
    let r : ArgList := .finite [⟨1, .required, .compound (.ofList [.array]) [e] []⟩]
    (a.WellFormed ∧ b.WellFormed ∧ a.Elementwise ∧ b.Elementwise ∧ a.normalize = a ∧
      b.normalize = b) ∧ a.stored.intersect .bits64 b.stored = .ok (some r.stored) ∧
        a.stored.agrees .bits64 .subset r.stored = .ok false ∧
          b.stored.agrees .bits64 .subset r.stored = .ok true := by
  decide +kernel

end StoredList

end CatalogLint
