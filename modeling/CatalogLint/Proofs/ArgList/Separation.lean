import CatalogLint.Proofs.ArgList.Canonical
import CatalogLint.Proofs.ArgList.Settled

/-!
# Settled lists are told apart by arguments

A settled shape is determined, up to the normal form of its element lists, by the values that fit
it (`Shape.Settled.normalize_eq`), and a list that requires its arguments up to some place by the
arguments that it accepts (`ArgList.Requires.normalize_eq`). Two lists in normal form that accept
the same arguments are therefore equal.
-/
namespace CatalogLint

namespace Kinds

theorem eq_of_mem_iff {k l : Kinds} (hk : k ∈ conversions) (hl : l ∈ conversions)
    (h : ∀ c, c ∈ k ↔ c ∈ l) : k = l := by
  have hall : ∀ k ∈ conversions, ∀ l ∈ conversions,
      (∀ c ∈ Category.all, c ∈ k ↔ c ∈ l) → k = l := by decide
  exact hall k hk l hl fun c _ => h c

/-- Some value of each conversion has no elements. -/
theorem exists_scalar {k : Kinds} (hk : k ∈ conversions) :
    ∃ c ∈ k, c ∉ sequences ∧ c ∉ tables := by
  have hall : ∀ k ∈ conversions, Category.integer ∈ k ∨ Category.char ∈ k := by decide
  rcases hall k hk with h | h
  · exact ⟨.integer, h, by decide⟩
  · exact ⟨.char, h, by decide⟩

theorem eq_of_arity {k l : Kinds} {m n : ℕ} (hk : k.arity = some m) (hl : l.arity = some n)
    {c : Category} (hck : c ∈ k) (hcl : c ∈ l) : k = l := by
  have hdisjoint : ∀ c ∈ Category.all, ¬ (c ∈ sequences ∧ c ∈ tables) := by decide
  rcases arity_eq_some hk with ⟨rfl, -⟩ | ⟨rfl, -⟩
  · rcases arity_eq_some hl with ⟨rfl, -⟩ | ⟨rfl, -⟩
    · rfl
    · exact absurd ⟨hck, hcl⟩ (hdisjoint c c.mem_all)
  · rcases arity_eq_some hl with ⟨rfl, -⟩ | ⟨rfl, -⟩
    · exact absurd ⟨hcl, hck⟩ (hdisjoint c c.mem_all)
    · rfl

end Kinds

namespace ArgList
variable {a b : ArgList} {m n : ℕ}

theorem Requires.length_eq (ha : a.Requires n) (hend : a.cellAt n = none) {xs : List Value}
    (h : a.Accepts xs) : xs.length = n := by
  obtain ⟨hle, hadmits⟩ := (ha.accepts_iff xs).mp h
  by_contra hne
  have hlt : n < xs.length := by omega
  obtain ⟨c, hc, -⟩ := hadmits n _ (List.getElem?_eq_getElem hlt)
  rw [hend] at hc
  cases hc

/-- What the first list accepts nowhere, the second one does not need. -/
theorem Requires.le_of_accepts (ha : a.Requires n) (hb : b.Requires m) (hs : b.Settled)
    (h : ∀ xs, b.Accepts xs → a.Accepts xs) : n ≤ m := by
  obtain ⟨xs, hxs, rfl⟩ := hb.exists_accepts_length hs
  exact ((ha.accepts_iff xs).mp (h xs hxs)).1

theorem Requires.admits_of_accepts (ha : a.Requires n) (hb : b.Requires m) (hs : b.Settled)
    (h : ∀ xs, b.Accepts xs → a.Accepts xs) {k : ℕ} {x : Value} (hx : b.Admits k x) :
    a.Admits k x := by
  obtain ⟨xs, hxs, hget⟩ := hb.exists_accepts hs hx
  exact ((ha.accepts_iff xs).mp (h xs hxs)).2 k x hget

/-- Lists that admit the same values have alike cells if their shapes are determined by that. -/
theorem Requires.normalize_eq_of_admits (ha : a.Requires n) (hb : b.Requires n)
    (hs : a.Settled) (ht : b.Settled) (h : ∀ k x, a.Admits k x ↔ b.Admits k x)
    (hshape : ∀ k c d, a.cellAt k = some c → b.cellAt k = some d →
      (∀ x : Value, x.Fits c.shape ↔ x.Fits d.shape) → c.shape.normalize = d.shape.normalize) :
    a.normalize = b.normalize := by
  refine normalize_ext ha.positive hb.positive fun k => ?_
  cases hc : a.cellAt k with
  | none =>
      cases hd : b.cellAt k with
      | none => rfl
      | some d =>
          obtain ⟨x, hx⟩ := (ht k d hd).inhabited
          obtain ⟨c, hc', -⟩ := (h k x).mpr ⟨d, hd, hx⟩
          rw [hc] at hc'
          cases hc'
  | some c =>
      obtain ⟨x, hx⟩ := (hs k c hc).inhabited
      obtain ⟨d, hd, -⟩ := (h k x).mp ⟨c, hc, hx⟩
      have hpresence : c.presence = d.presence := by
        have hiff := (ha.presence k c hc).trans (hb.presence k d hd).symm
        cases hp : c.presence with
        | required => exact (hiff.mp hp).symm
        | optional =>
            cases hq : d.presence with
            | required => rw [hiff.mpr hq] at hp; cases hp
            | optional => rfl
      have hfits : ∀ x : Value, x.Fits c.shape ↔ x.Fits d.shape := by
        intro x
        rw [← admits_of_cellAt hc, h k x, admits_of_cellAt hd]
      simp only [hd, Option.map_some, Cell.normalize, hpresence, hshape k c d hc hd hfits]

end ArgList

namespace Shape.Settled
variable {s t : Shape}

theorem ne_plain {k l : Kinds} {i r : List Run} {n : ℕ} (hk : k ∈ Kinds.conversions)
    (hl : l.arity = some n) :
    ¬ ∀ x : Value, x.Fits (.plain k) ↔ x.Fits (.compound l i r) := by
  intro h
  obtain ⟨c, hc, hsequence, htable⟩ := Kinds.exists_scalar hk
  obtain ⟨x, rfl⟩ := Value.exists_category c
  have hx := ((x.fits_compound l i r).mp ((h x).mp ((x.fits_plain k).mpr hc))).1
  rcases Kinds.arity_eq_some hl with ⟨rfl, -⟩ | ⟨rfl, -⟩
  · exact hsequence hx
  · exact htable hx

/-- Every row of elements that is accepted is the elements of some value. -/
theorem accepts_of_fits {k : Kinds} {i r j q : List Run} {n : ℕ} (hk : k.arity = some n)
    (ha : ArgList.Requires n ⟨i, r⟩) (hend : ArgList.cellAt ⟨i, r⟩ n = none)
    (h : ∀ x : Value, x.Fits (.compound k i r) → x.Fits (.compound k j q)) {es : List Value}
    (hes : ArgList.Accepts ⟨i, r⟩ es) : ArgList.Accepts ⟨j, q⟩ es := by
  have hlen := ha.length_eq hend hes
  obtain ⟨x, hx, helements⟩ := Value.exists_of_elements es (hlen.symm ▸ hk)
  have hfits := h x ((x.fits_compound k i r).mpr ⟨hx, es, helements, hes⟩)
  obtain ⟨-, es', helements', hes'⟩ := (x.fits_compound k j q).mp hfits
  rw [helements] at helements'
  cases helements'
  exact hes'

/-- Settled shapes that the same values fit are the same, up to the form of their element lists. -/
theorem normalize_eq (hs : s.Settled) (ht : t.Settled) (h : ∀ x : Value, x.Fits s ↔ x.Fits t) :
    s.normalize = t.normalize := by
  induction hs generalizing t with
  | @plain k hk =>
      cases ht with
      | @plain l hl =>
          have hkl : k = l := by
            apply Kinds.eq_of_mem_iff hk hl
            intro c
            obtain ⟨x, rfl⟩ := Value.exists_category c
            rw [← x.fits_plain, ← x.fits_plain, h x]
          rw [hkl]
      | compound arity => exact absurd h (ne_plain hk arity)
  | @compound k i r n arity requires ends elements ih =>
      cases ht with
      | plain hl => exact absurd (fun x => (h x).symm) (ne_plain hl arity)
      | @compound l j q m arity' requires' ends' elements' =>
          obtain ⟨x, hx⟩ := (compound arity requires ends elements).inhabited
          have hk := ((x.fits_compound k i r).mp hx).1
          have hl := ((x.fits_compound l j q).mp ((h x).mp hx)).1
          obtain rfl := Kinds.eq_of_arity arity arity' hk hl
          obtain rfl : n = m := Option.some.inj (arity.symm.trans arity')
          have hmp : ∀ es, ArgList.Accepts ⟨i, r⟩ es → ArgList.Accepts ⟨j, q⟩ es :=
            fun es => accepts_of_fits arity requires ends fun x => (h x).mp
          have hmpr : ∀ es, ArgList.Accepts ⟨j, q⟩ es → ArgList.Accepts ⟨i, r⟩ es :=
            fun es => accepts_of_fits arity requires' ends' fun x => (h x).mpr
          refine normalize_congr rfl rfl ?_
          rintro a b ⟨⟩ ⟨⟩
          apply requires.normalize_eq_of_admits requires' elements elements'
          · intro p x
            exact ⟨requires'.admits_of_accepts requires elements hmp,
              requires.admits_of_accepts requires' elements' hmpr⟩
          · exact fun p c d hc hd hfits => ih p c hc (elements' p d hd) hfits

end Shape.Settled

namespace ArgList
variable {a b : ArgList} {m n : ℕ}

/-- Lists that accept the same arguments have the same normal form. -/
theorem Requires.normalize_eq (ha : a.Requires n) (hb : b.Requires m) (hs : a.Settled)
    (ht : b.Settled) (h : ∀ xs, a.Accepts xs ↔ b.Accepts xs) : a.normalize = b.normalize := by
  have hmp : ∀ xs, a.Accepts xs → b.Accepts xs := fun xs => (h xs).mp
  have hmpr : ∀ xs, b.Accepts xs → a.Accepts xs := fun xs => (h xs).mpr
  obtain rfl : n = m :=
    Nat.le_antisymm (ha.le_of_accepts hb ht hmpr) (hb.le_of_accepts ha hs hmp)
  apply ha.normalize_eq_of_admits hb hs ht
  · intro k x
    exact ⟨hb.admits_of_accepts ha hs hmp, ha.admits_of_accepts hb ht hmpr⟩
  · exact fun k c d hc hd hfits => (hs k c hc).normalize_eq (ht k d hd) hfits

/-! ### Lists in normal form -/

theorem Requires.normalize (h : a.Requires n) : a.normalize.Requires n := by
  refine ⟨(normal_normalize h.positive).positive, fun k hk => ?_, fun k c hc => ?_⟩
  · obtain ⟨c, hc⟩ := h.reaches k hk
    exact ⟨c.normalize, by rw [cellAt_normalize h.positive, hc, Option.map_some]⟩
  · rw [cellAt_normalize h.positive, Option.map_eq_some_iff] at hc
    obtain ⟨d, hd, rfl⟩ := hc
    exact h.presence k d hd

end ArgList

theorem Shape.Settled.normalize {s : Shape} (h : s.Settled) : s.normalize.Settled := by
  induction h with
  | plain conversion => exact .plain conversion
  | @compound k i r n arity requires ends elements ih =>
      have hcell := ArgList.cellAt_normalize requires.positive
      have hshape : (Shape.compound k i r).normalize = .compound k
          (ArgList.normalize ⟨i, r⟩).initial (ArgList.normalize ⟨i, r⟩).repeated := rfl
      rw [hshape]
      refine .compound arity requires.normalize ?_ fun p c hc => ?_
      · rw [hcell, ends, Option.map_none]
      · rw [hcell, Option.map_eq_some_iff] at hc
        obtain ⟨d, hd, rfl⟩ := hc
        exact ih p d hd

namespace ArgList
variable {a b : ArgList} {m n : ℕ}

theorem Settled.normalize (h : a.Settled) (ha : a.Positive) : a.normalize.Settled := by
  intro k c hc
  rw [cellAt_normalize ha, Option.map_eq_some_iff] at hc
  obtain ⟨d, hd, rfl⟩ := hc
  exact (h k d hd).normalize

end ArgList

end CatalogLint
