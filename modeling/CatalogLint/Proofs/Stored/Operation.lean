import CatalogLint.Proofs.Stored.Narrow

/-!
# Operations keep stored lists valid

Every operation on a valid list that allows it ends without a defect, and what is left is valid
again. So are all lists that operations lead to (`reachable_valid`).
-/
namespace CatalogLint

/-- The shapes that may be given to arguments are stored forms of shapes. -/
theorem StoredShape.Valid.exists_stored {s : StoredShape} (h : s.Valid) :
    ∃ t : Shape, t.Storable .unbounded ∧ t.stored = s := by
  have hstored : s.erase.stored = s :=
    StoredShape.erase_eq h.compound fun m hm => (h.elements m hm).stored_erase
  have htype := h.type
  have helements := h.elements
  rw [← hstored] at htype helements
  refine ⟨s.erase, ⟨fun hc => ?_, fun m hm => ?_⟩, hstored⟩
  · simpa [hc] using htype
  · refine (ArgList.wellFormed_of_valid (helements m.stored ?_)).storable
    rw [Shape.elements_stored, hm, Option.map_some]

theorem StoredList.Valid.exists_stored {l : StoredList} (h : l.Valid) :
    ∃ m : ArgList, m.Storable .unbounded ∧ m.stored = l := by
  obtain ⟨m, hm, rfl⟩ := valid_iff.mp h
  exact ⟨m, hm.storable, rfl⟩

namespace ArgList
variable {l : ArgList} {n : ℕ}

theorem reaches_stored : l.stored.Reaches n ↔ l.Reaches n := by
  rw [StoredList.Reaches, isFinite_stored, initial_stored, Segment.length_stored, Reaches]

end ArgList

namespace StoredList

/-- An operation that is allowed leaves a list that can be stored, or none. -/
theorem Operation.run_stored {l : ArgList} (h : l.Storable .unbounded) {operation : Operation}
    (allowed : operation.Allowed l.stored) :
    ∃ o : Option ArgList, operation.run .unbounded l.stored = .ok (o.map ArgList.stored) ∧
      ∀ m ∈ o, m.Storable .unbounded := by
  have hfits := Word.fits_unbounded
  have hcovers := Word.covers_unbounded
  have hshapes : ∀ r ∈ l.runs, r.shape.Storable .unbounded := fun r hr => h.shape hr
  have hsome : ∀ {m : ArgList} {x : Checked StoredList}, x = .ok m.stored →
      m.Storable .unbounded → ∃ o : Option ArgList,
        (x >>= fun l => return some l) = .ok (o.map ArgList.stored) ∧
          ∀ k ∈ o, k.Storable .unbounded := by
    rintro m x rfl hm
    exact ⟨some m, rfl, fun k hk => Option.some.inj hk ▸ hm⟩
  cases operation with
  | require n => exact ⟨_, ArgList.require_stored h (hfits _), h.require (hfits _)⟩
  | endAt n => exact ⟨_, ArgList.endAt_stored h (hfits _), h.endAt (hfits _)⟩
  | restrict first last shape =>
      obtain ⟨hle, hr, hshape⟩ := allowed
      obtain ⟨t, ht, rfl⟩ := hshape.exists_stored
      exact ⟨_, ArgList.restrict_stored h hshapes ht hcovers hle (ArgList.reaches_stored.mp hr)
        (hfits _)⟩
  | restrictFrom n shape =>
      obtain ⟨hr, hshape⟩ := allowed
      obtain ⟨t, ht, rfl⟩ := hshape.exists_stored
      exact ⟨_, ArgList.restrictFrom_stored h hshapes ht hcovers (ArgList.reaches_stored.mp hr)
        (hfits _)⟩
  | requireShape first last shape =>
      obtain ⟨hle, hshape⟩ := allowed
      obtain ⟨t, ht, rfl⟩ := hshape.exists_stored
      exact ⟨_, ArgList.requireShape_stored h hshapes ht hcovers hle (hfits _)⟩
  | backtrack =>
      have hfin : l.isFinite = true := by rw [← ArgList.isFinite_stored]; exact allowed
      exact ⟨_, ArgList.backtrack_stored hfin h.positive, fun m hm => h.backtrack hfin hm⟩
  | intersect other =>
      obtain ⟨k, hk, rfl⟩ := StoredList.Valid.exists_stored allowed
      have hfit := h.fitTogether hk hcovers
      exact ⟨_, ArgList.intersect_stored h hk hfit, fun m hm => h.intersect hk hfit hm⟩
  | intersectAfter other =>
      obtain ⟨k, hk, rfl⟩ := StoredList.Valid.exists_stored allowed
      have hfit := hk.fitTogether h hcovers
      exact ⟨_, ArgList.intersect_stored hk h hfit, fun m hm => hk.intersect h hfit hm⟩
  | normalize => exact hsome (ArgList.normalize_stored h) h.normalize
  | normalizeOutermost => exact hsome (ArgList.normalizeOutermost_stored h) h.normalizeOutermost
  | unfold m => exact hsome (ArgList.unfold_stored (hfits _)) (h.unfold (hfits _))
  | rotate m => exact hsome (ArgList.rotate_stored h allowed (hfits _)) (h.rotate (hfits _))
  | split n =>
      refine ⟨some (l.split n), ?_, fun m hm => Option.some.inj hm ▸ h.split (hfits _)⟩
      rw [run, ArgList.split_stored h (ArgList.reaches_stored.mp allowed) (hfits _)]
      rfl
  | unshare n =>
      refine ⟨some (l.unshare n), ?_, fun m hm => Option.some.inj hm ▸ h.unshare (hfits _)⟩
      rw [run, ArgList.unshare_stored h (ArgList.reaches_stored.mp allowed) (hfits _)]
      rfl
  | appendLoop => exact hsome (ArgList.appendLoop_stored (hfits _)) (h.appendLoop (hfits _))

/-- An operation that is allowed on a valid list ends without a defect, in a valid list or in
none. -/
theorem Operation.run_valid {l : StoredList} (h : l.Valid) {operation : Operation}
    (allowed : operation.Allowed l) :
    ∃ o, operation.run .unbounded l = .ok o ∧ ∀ m ∈ o, m.Valid := by
  obtain ⟨k, hk, rfl⟩ := h.exists_stored
  obtain ⟨o, hrun, ho⟩ := operation.run_stored hk allowed
  refine ⟨_, hrun, fun m hm => ?_⟩
  obtain ⟨j, hj, rfl⟩ := Option.map_eq_some_iff.mp hm
  exact (ho j hj).wellFormed.valid

theorem Reachable.induction_valid {l : StoredList} (h : l.Reachable) : l.Valid := by
  induction h with
  | empty => exact verify_iff.mp rfl
  | unconstrained => exact verify_iff.mp rfl
  | valid h => exact h
  | @step l m operation _ allowed run ih =>
      obtain ⟨o, hrun, ho⟩ := operation.run_valid ih allowed
      rw [run] at hrun
      cases hrun
      exact ho m rfl

/-- Every list that operations lead to is valid, passes the check, and allows no operation that
has a defect. -/
theorem reachable_valid {l : StoredList} (h : l.Reachable) :
    l.Valid ∧ l.verify .unbounded = .ok () ∧
      ∀ operation : Operation, operation.Allowed l →
        ∃ o, operation.run .unbounded l = .ok o ∧ ∀ m ∈ o, m.Valid := by
  have hl := h.induction_valid
  exact ⟨hl, verify_iff.mpr hl, fun operation allowed => operation.run_valid hl allowed⟩

theorem reachable_valid_pairs :
    ∃ l, (Operation.requireShape 1 2 ⟨.sequences, true,
        some ⟨⟨[⟨2, .required, ⟨.any, false, none⟩⟩], 2⟩, ⟨[], 0⟩⟩⟩).run .unbounded unconstrained =
          .ok (some l) ∧
      l.initial.length = 3 ∧ l.Valid ∧ l.verify .unbounded = .ok () ∧
        ∀ operation : Operation, operation.Allowed l →
          ∃ o, operation.run .unbounded l = .ok o ∧ ∀ m ∈ o, m.Valid := by
  have hallowed : (Operation.requireShape 1 2 ⟨.sequences, true,
      some ⟨⟨[⟨2, .required, ⟨.any, false, none⟩⟩], 2⟩, ⟨[], 0⟩⟩⟩).Allowed unconstrained := by
    refine ⟨by decide, .inl rfl, by decide, fun m hm => ?_⟩
    cases hm
    exact verify_iff.mp rfl
  exact ⟨_, rfl, rfl, reachable_valid (.step .unconstrained hallowed rfl)⟩

end StoredList

end CatalogLint
