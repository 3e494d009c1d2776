import CatalogLint.Proofs.ArgList.View
import CatalogLint.Stored.Operation

/-!
# Lists as they are stored

A stored list is valid exactly when it is `ArgList.stored` of a well-formed list (`valid_iff`),
and `verify` accepts those of which all extents fit the word (`verify_iff_storable`).
-/
namespace CatalogLint

section Storing

theorem Run.storedList_eq (s : List Run) : Run.storedList s = s.map Run.stored := by
  induction s with
  | nil => rfl
  | cons r s ih => rw [Run.storedList, ih, List.map_cons]

theorem StoredRun.eraseList_eq (s : List StoredRun) :
    StoredRun.eraseList s = s.map StoredRun.erase := by
  induction s with
  | nil => rfl
  | cons r s ih => rw [StoredRun.eraseList, ih, List.map_cons]

@[simp] theorem Run.count_stored (r : Run) : r.stored.count = r.count := by
  cases r
  rfl

@[simp] theorem Run.presence_stored (r : Run) : r.stored.presence = r.presence := by
  cases r
  rfl

@[simp] theorem Run.shape_stored (r : Run) : r.stored.shape = r.shape.stored := by
  cases r
  rfl

@[simp] theorem Run.stored_withCount (r : Run) (n : ℕ) :
    r.stored.withCount n = (r.withCount n).stored := by
  cases r
  rfl

@[simp] theorem Shape.kinds_stored (s : Shape) : s.stored.kinds = s.kinds := by
  cases s <;> rfl

@[simp] theorem Shape.compound_stored (s : Shape) : s.stored.compound = s.isCompound := by
  cases s <;> rfl

@[simp] theorem Shape.elements_stored (s : Shape) :
    s.stored.elements = s.elements?.map ArgList.stored := by
  cases s with
  | plain k => rfl
  | compound k i r =>
      simp only [Shape.stored, elements?, Option.map_some, ArgList.stored, Segment.stored,
        Run.storedList_eq]

theorem Shape.isSome_elements (s : Shape) : s.elements?.isSome = s.isCompound := by
  cases s <;> rfl

@[simp] theorem Segment.runs_stored (s : Segment) : (Segment.stored s).runs = s.map Run.stored :=
  rfl

@[simp] theorem Segment.length_stored (s : Segment) :
    (Segment.stored s).length = Segment.extent s := rfl

@[simp] theorem ArgList.initial_stored (l : ArgList) :
    l.stored.initial = Segment.stored l.initial := rfl

@[simp] theorem ArgList.repeated_stored (l : ArgList) :
    l.stored.repeated = Segment.stored l.repeated := rfl

@[simp] theorem ArgList.isFinite_stored (l : ArgList) : l.stored.isFinite = l.isFinite := by
  simp [StoredList.isFinite, isFinite]

mutual

theorem Shape.erase_stored : (s : Shape) → s.stored.erase = s
  | .plain _ => rfl
  | .compound k i r => by
      simp only [Shape.stored, StoredShape.erase, StoredSegment.erase, Run.erase_storedList]

theorem Run.erase_stored : (r : Run) → r.stored.erase = r
  | ⟨n, p, s⟩ => by
      simp only [Run.stored, StoredRun.erase, Shape.erase_stored]

theorem Run.erase_storedList : (s : List Run) → StoredRun.eraseList (Run.storedList s) = s
  | [] => rfl
  | r :: s => by
      simp only [Run.storedList, StoredRun.eraseList, Run.erase_stored, Run.erase_storedList]

end

theorem ArgList.erase_stored (l : ArgList) : l.stored.erase = l := by
  obtain ⟨i, r⟩ := l
  simp only [ArgList.stored, StoredList.erase, Segment.stored, StoredSegment.erase,
    ← Run.storedList_eq, Run.erase_storedList]

@[simp] theorem Shape.stored_inj {s t : Shape} : s.stored = t.stored ↔ s = t :=
  ⟨fun h => by rw [← s.erase_stored, h, t.erase_stored], fun h => by rw [h]⟩

@[simp] theorem Run.same_stored (a b : Run) : a.stored.same b.stored = a.same b := by
  simp [StoredRun.same, Run.same]

theorem ArgList.depth_stored (l : ArgList) : l.stored.depth = l.depth := by
  rw [StoredList.depth, erase_stored]

end Storing

section Validity

/-- The stored form of an element list is that of a plain list, if it is for all its elements. -/
theorem StoredShape.erase_eq {s : StoredShape} (h : s.compound = true ↔ s.elements.isSome = true)
    (helements : ∀ m, s.elements = some m → m.erase.stored = m) : s.erase.stored = s := by
  obtain ⟨k, c, o⟩ := s
  cases o with
  | none =>
      cases c with
      | false => rfl
      | true => simp at h
  | some m =>
      obtain ⟨i, r⟩ := m
      have hm := helements _ rfl
      have hc : c = true := h.mpr rfl
      simp only [StoredShape.erase, Shape.stored, hc, Run.storedList_eq]
      exact congrArg (fun m => StoredShape.mk k true (some m)) hm

theorem StoredSegment.erase_eq {s : StoredSegment}
    (hlength : s.length = StoredRun.total s.runs)
    (hshape : ∀ r ∈ s.runs, r.shape.erase.stored = r.shape) : Segment.stored s.erase = s := by
  obtain ⟨runs, length⟩ := s
  have hrun : ∀ r ∈ runs, r.erase.stored = r := by
    rintro ⟨n, p, s⟩ hr
    simp only [StoredRun.erase, Run.stored, hshape _ hr]
  have hextent : ∀ runs : List StoredRun,
      Segment.extent (runs.map StoredRun.erase) = StoredRun.total runs := by
    intro runs
    induction runs with
    | nil => rfl
    | cons r runs ih =>
        obtain ⟨n, p, s⟩ := r
        rw [List.map_cons, Segment.extent, ih]
        rfl
  have hmap : runs.map (fun r => r.erase.stored) = runs := by
    conv_rhs => rw [← List.map_id runs]
    exact List.map_congr_left hrun
  simp only [StoredSegment.erase, StoredRun.eraseList_eq, Segment.stored, List.map_map, hextent]
  simp only [Function.comp_def, hmap]
  rw [← hlength]

theorem StoredList.Valid.stored_erase {l : StoredList} (h : l.Valid) : l.erase.stored = l := by
  induction h with
  | @intro l counts types compounds initial repeated elements ih =>
      have hshape : ∀ r ∈ l.initial.runs ++ l.repeated.runs, r.shape.erase.stored = r.shape :=
        fun r hr => StoredShape.erase_eq (compounds r hr) (ih r hr)
      have hinitial := StoredSegment.erase_eq initial
        fun r hr => hshape r (List.mem_append_left _ hr)
      have hrepeated := StoredSegment.erase_eq repeated
        fun r hr => hshape r (List.mem_append_right _ hr)
      obtain ⟨i, r⟩ := l
      rw [StoredList.erase, ArgList.stored, hinitial, hrepeated]

end Validity

namespace ArgList

/-- A well-formed list all of whose extents fit the word, at every level of nesting. -/
inductive Storable (w : Word) : ArgList → Prop
  | intro {l : ArgList} (positive : l.Positive) (initial : w.Fits (Segment.extent l.initial))
      (repeated : w.Fits (Segment.extent l.repeated))
      (types : ∀ r ∈ l.runs, r.shape.isCompound = false → r.shape.kinds.isEmpty = false)
      (elements : ∀ r ∈ l.runs, ∀ m, r.shape.elements? = some m → Storable w m) :
      Storable w l

end ArgList

/-- A shape of a list that can be stored. -/
structure Shape.Storable (w : Word) (s : Shape) : Prop where
  type : s.isCompound = false → s.kinds.isEmpty = false
  elements : ∀ m, s.elements? = some m → m.Storable w

namespace ArgList
variable {w : Word} {l m : ArgList}

theorem storable_iff : l.Storable w ↔ l.Positive ∧ w.Fits (Segment.extent l.initial) ∧
    w.Fits (Segment.extent l.repeated) ∧ ∀ r ∈ l.runs, r.shape.Storable w := by
  constructor
  · rintro ⟨positive, initial, repeated, types, elements⟩
    exact ⟨positive, initial, repeated, fun r hr => ⟨types r hr, elements r hr⟩⟩
  · rintro ⟨positive, initial, repeated, shapes⟩
    exact .intro positive initial repeated (fun r hr => (shapes r hr).type)
      fun r hr => (shapes r hr).elements

theorem Storable.positive (h : l.Storable w) : l.Positive :=
  (storable_iff.mp h).1

theorem Storable.initial (h : l.Storable w) : w.Fits (Segment.extent l.initial) :=
  (storable_iff.mp h).2.1

theorem Storable.repeated (h : l.Storable w) : w.Fits (Segment.extent l.repeated) :=
  (storable_iff.mp h).2.2.1

theorem Storable.shape (h : l.Storable w) {r : Run} (hr : r ∈ l.runs) : r.shape.Storable w :=
  (storable_iff.mp h).2.2.2 r hr

theorem Storable.shape_cellAt (h : l.Storable w) {n : ℕ} {c : Cell} (hc : l.cellAt n = some c) :
    c.shape.Storable w := by
  obtain ⟨r, hr, rfl⟩ := mem_runs_of_cellAt hc
  exact h.shape hr

theorem Storable.wellFormed (h : l.Storable w) : l.WellFormed := by
  induction h with
  | @intro l positive _ _ types _ ih =>
      exact .intro (fun r hr => ⟨(positive_iff l).mp positive r hr, types r hr⟩) ih

/-- What can be stored in a word can be stored in every larger one. -/
theorem Storable.mono {v : Word} (h : l.Storable v) (hv : ∀ n, v.Fits n → w.Fits n) :
    l.Storable w := by
  induction h with
  | intro positive initial repeated types _ ih =>
      exact .intro positive (hv _ initial) (hv _ repeated) types ih

theorem WellFormed.storable (h : l.WellFormed) : l.Storable .unbounded := by
  induction h with
  | @intro l here elements ih =>
      have positive : l.Positive := (positive_iff l).mpr fun r hr => (here r hr).1
      exact .intro positive (Word.fits_unbounded _) (Word.fits_unbounded _)
        (fun r hr => (here r hr).2) ih

/-- Lists with these shapes can be stored if their extents fit. -/
theorem Storable.of_cells (positive : m.Positive) (initial : w.Fits (Segment.extent m.initial))
    (repeated : w.Fits (Segment.extent m.repeated))
    (shapes : ∀ n c, m.cellAt n = some c → c.shape.Storable w) : m.Storable w := by
  refine storable_iff.mpr ⟨positive, initial, repeated, fun r hr => ?_⟩
  obtain ⟨n, hn⟩ := exists_cellAt_of_mem_runs positive hr
  exact shapes n r.cell hn

theorem Storable.of_cellAt (h : l.Storable w) (positive : m.Positive)
    (hcell : m.cellAt = l.cellAt) (initial : w.Fits (Segment.extent m.initial))
    (repeated : w.Fits (Segment.extent m.repeated)) : m.Storable w :=
  .of_cells positive initial repeated fun _ _ hc => h.shape_cellAt (hcell ▸ hc)

end ArgList

section Verifying
variable {w : Word}

theorem Run.verifyList_stored {s : List Run} (hpos : Segment.Positive s)
    (hshape : ∀ r ∈ s, r.shape.stored.verify w = .ok ()) {n : ℕ}
    (hfits : w.Fits (n + Segment.extent s)) :
    StoredRun.verifyList w (s.map Run.stored) n = .ok (n + Segment.extent s) := by
  induction s generalizing n with
  | nil => rfl
  | cons r s ih =>
      obtain ⟨hr, hs⟩ := Segment.positive_cons.mp hpos
      obtain ⟨count, presence, shape⟩ := r
      have hverify := hshape _ List.mem_cons_self
      rw [Segment.extent, ← Nat.add_assoc] at hfits ⊢
      rw [List.map_cons, Run.stored, StoredRun.verifyList, StoredRun.verify,
        Checked.demand_eq hr, hverify, Word.add_eq (hfits.mono (Nat.le_add_right _ _))]
      exact ih hs (fun q hq => hshape q (List.mem_cons_of_mem _ hq)) hfits

theorem Segment.verify_stored {s : Segment} (hpos : Positive s)
    (hshape : ∀ r ∈ s, r.shape.stored.verify w = .ok ()) (hfits : w.Fits (extent s)) :
    (stored s).verify w = .ok () := by
  have hlist := Run.verifyList_stored hpos hshape (n := 0) (by simpa using hfits)
  rw [Nat.zero_add] at hlist
  rw [Segment.stored, StoredSegment.verify, hlist, Checked.ok_bind, Checked.demand_eq rfl]

theorem Shape.verify_stored {s : Shape} (htype : s.isCompound = false → s.kinds.isEmpty = false)
    (helements : ∀ m, s.elements? = some m → m.stored.verify w = .ok ()) :
    s.stored.verify w = .ok () := by
  cases s with
  | plain k =>
      have hk : k.isEmpty = false := htype rfl
      simp [Shape.stored, StoredShape.verify, StoredList.verifyOption, Checked.demand, hk]
  | compound k i r =>
      have hm := helements _ rfl
      simp only [Shape.stored, Run.storedList_eq, StoredShape.verify, StoredList.verifyOption]
      simp only [ArgList.stored, Segment.stored] at hm
      simp [Checked.demand, hm]

/-- What can be stored is verified. -/
theorem ArgList.Storable.verify {l : ArgList} (h : l.Storable w) :
    l.stored.verify w = .ok () := by
  induction h with
  | @intro l positive initial repeated types elements ih =>
      have hshape : ∀ r ∈ l.runs, r.shape.stored.verify w = .ok () :=
        fun r hr => Shape.verify_stored (types r hr) (ih r hr)
      have hinitial := Segment.verify_stored positive.1
        (fun r hr => hshape r (List.mem_append_left _ hr)) initial
      have hrepeated := Segment.verify_stored positive.2
        (fun r hr => hshape r (List.mem_append_right _ hr)) repeated
      rw [ArgList.stored, StoredList.verify, hinitial, Checked.ok_bind, hrepeated]

end Verifying

theorem Segment.extent_eq_total (s : Segment) : extent s = StoredRun.total (s.map Run.stored) := by
  induction s with
  | nil => rfl
  | cons r s ih =>
      rw [Segment.extent, ih, List.map_cons, StoredRun.total, Run.count_stored]

namespace ArgList
variable {m : ArgList}

theorem runs_stored (m : ArgList) :
    m.stored.initial.runs ++ m.stored.repeated.runs = m.runs.map Run.stored := by
  rw [runs, List.map_append]
  rfl

theorem WellFormed.valid (h : m.WellFormed) : m.stored.Valid := by
  induction h with
  | @intro m here elements ih =>
      refine .intro ?_ ?_ ?_ (Segment.extent_eq_total _) (Segment.extent_eq_total _) ?_ <;>
        rw [runs_stored] <;> simp only [List.forall_mem_map] <;> intro r hr
      · simpa using (here r hr).1
      · cases hc : r.shape.isCompound with
        | true => simp [hc]
        | false => simpa [hc] using (here r hr).2 hc
      · simp [Shape.isSome_elements]
      · intro k hk
        rw [Run.shape_stored, Shape.elements_stored, Option.map_eq_some_iff] at hk
        obtain ⟨j, hj, rfl⟩ := hk
        exact ih r hr j hj

theorem wellFormed_of_valid (h : m.stored.Valid) : m.WellFormed := by
  generalize hl : m.stored = l at h
  induction h generalizing m with
  | intro counts types compounds initial repeated elements ih =>
      subst hl
      rw [runs_stored] at counts types ih
      simp only [List.forall_mem_map] at counts types ih
      refine .intro (fun r hr => ⟨by simpa using counts r hr, fun hc => ?_⟩) fun r hr k hk => ?_
      · simpa [hc] using types r hr
      · exact ih r hr k.stored (by simp [hk]) rfl

end ArgList

/-- The valid stored lists are those of well-formed lists. -/
theorem StoredList.valid_iff {l : StoredList} :
    l.Valid ↔ ∃ m : ArgList, m.WellFormed ∧ m.stored = l := by
  constructor
  · intro h
    have hl := h.stored_erase
    refine ⟨l.erase, ArgList.wellFormed_of_valid ?_, hl⟩
    rwa [hl]
  · rintro ⟨m, hm, rfl⟩
    exact hm.valid

section Checking
variable {w : Word}

mutual

theorem StoredShape.valid_of_verify : (s : StoredShape) → s.verify w = .ok () → s.Valid
  | ⟨kinds, compound, elements⟩, h => by
      simp only [StoredShape.verify, Checked.bind_eq_ok, Checked.demand_eq_ok] at h
      obtain ⟨-, type, -, hcompound, h⟩ := h
      exact ⟨type, by rw [hcompound], StoredList.valid_of_verifyOption elements h⟩

theorem StoredRun.valid_of_verify :
    (r : StoredRun) → r.verify w = .ok () → 0 < r.count ∧ r.shape.Valid
  | ⟨count, presence, shape⟩, h => by
      simp only [StoredRun.verify, Checked.bind_eq_ok, Checked.demand_eq_ok] at h
      obtain ⟨-, hcount, h⟩ := h
      exact ⟨hcount, shape.valid_of_verify h⟩

theorem StoredRun.valid_of_verifyList : (runs : List StoredRun) → (n m : ℕ) →
    StoredRun.verifyList w runs n = .ok m →
      (∀ r ∈ runs, 0 < r.count ∧ r.shape.Valid) ∧ m = n + StoredRun.total runs
  | [], n, m, h => by
      cases h
      exact ⟨nofun, rfl⟩
  | ⟨count, presence, shape⟩ :: runs, n, m, h => by
      simp only [StoredRun.verifyList, Checked.bind_eq_ok] at h
      obtain ⟨_, hr, k, hk, h⟩ := h
      obtain ⟨hruns, rfl⟩ := StoredRun.valid_of_verifyList runs k m h
      have hr := StoredRun.valid_of_verify _ hr
      rw [Word.eq_of_add_eq hk]
      exact ⟨List.forall_mem_cons.mpr ⟨hr, hruns⟩, by simp [StoredRun.total, Nat.add_assoc]⟩

theorem StoredSegment.valid_of_verify : (s : StoredSegment) → s.verify w = .ok () →
    (∀ r ∈ s.runs, 0 < r.count ∧ r.shape.Valid) ∧
      s.length = StoredRun.total s.runs
  | ⟨runs, length⟩, h => by
      simp only [StoredSegment.verify, Checked.bind_eq_ok, Checked.demand_eq_ok] at h
      obtain ⟨total, htotal, rfl⟩ := h
      simpa using StoredRun.valid_of_verifyList runs 0 total htotal

theorem StoredList.valid_of_verify : (l : StoredList) → l.verify w = .ok () → l.Valid
  | ⟨initial, repeated⟩, h => by
      simp only [StoredList.verify, Checked.bind_eq_ok] at h
      obtain ⟨_, hi, hr⟩ := h
      obtain ⟨hi, hilength⟩ := initial.valid_of_verify hi
      obtain ⟨hr, hrlength⟩ := repeated.valid_of_verify hr
      have hruns : ∀ r ∈ initial.runs ++ repeated.runs, 0 < r.count ∧ r.shape.Valid :=
        fun r hmem => (List.mem_append.mp hmem).elim (hi r) (hr r)
      exact .intro (fun r h => (hruns r h).1) (fun r h => (hruns r h).2.type)
        (fun r h => (hruns r h).2.compound) hilength hrlength
        fun r h => (hruns r h).2.elements

theorem StoredList.valid_of_verifyOption : (o : Option StoredList) →
    StoredList.verifyOption w o = .ok () → ∀ m, o = some m → m.Valid
  | none, _ => nofun
  | some l, h => by
      rintro m ⟨⟩
      exact l.valid_of_verify h

end

/-- What is verified are the valid lists. -/
theorem StoredList.verify_iff {l : StoredList} : l.verify .unbounded = .ok () ↔ l.Valid := by
  constructor
  · exact l.valid_of_verify
  · intro h
    obtain ⟨m, hm, rfl⟩ := valid_iff.mp h
    exact hm.storable.verify

theorem Run.fits_of_verifyList {s : List Run} {n total : ℕ} (hn : w.Fits n)
    (h : StoredRun.verifyList w (s.map Run.stored) n = .ok total) :
    w.Fits total ∧ ∀ r ∈ s, r.shape.stored.verify w = .ok () := by
  induction s generalizing n with
  | nil =>
      cases h
      exact ⟨hn, nofun⟩
  | cons r s ih =>
      obtain ⟨count, presence, shape⟩ := r
      simp only [List.map_cons, Run.stored, StoredRun.verifyList, StoredRun.verify,
        Checked.bind_eq_ok] at h
      obtain ⟨_, ⟨_, -, hshape⟩, k, hk, h⟩ := h
      obtain ⟨htotal, hs⟩ := ih (Word.fits_of_add_eq hk) h
      exact ⟨htotal, List.forall_mem_cons.mpr ⟨hshape, hs⟩⟩

theorem Segment.fits_of_verify {s : Segment} (h : (stored s).verify w = .ok ()) :
    w.Fits (extent s) ∧ ∀ r ∈ s, r.shape.stored.verify w = .ok () := by
  simp only [stored, StoredSegment.verify, Checked.bind_eq_ok, Checked.demand_eq_ok] at h
  obtain ⟨total, hlist, rfl⟩ := h
  exact Run.fits_of_verifyList w.fits_zero hlist

theorem Shape.verify_elements {s : Shape} {m : ArgList} (h : s.stored.verify w = .ok ())
    (hm : s.elements? = some m) : m.stored.verify w = .ok () := by
  cases s with
  | plain k => cases hm
  | compound k i r =>
      cases hm
      simp only [Shape.stored, Run.storedList_eq, StoredShape.verify, StoredList.verifyOption,
        Checked.bind_eq_ok] at h
      obtain ⟨-, -, -, -, h⟩ := h
      exact h

/-- What is verified can be stored. -/
theorem ArgList.WellFormed.storable_of_verify {m : ArgList} (hm : m.WellFormed)
    (h : m.stored.verify w = .ok ()) : m.Storable w := by
  induction hm with
  | @intro m here elements ih =>
      simp only [stored, StoredList.verify, Checked.bind_eq_ok] at h
      obtain ⟨_, hinitial, hrepeated⟩ := h
      obtain ⟨hi, hishapes⟩ := Segment.fits_of_verify hinitial
      obtain ⟨hr, hrshapes⟩ := Segment.fits_of_verify hrepeated
      refine .intro ((positive_iff m).mpr fun r hr => (here r hr).1) hi hr
        (fun r hr => (here r hr).2) fun r hmem k hk => ih r hmem k hk ?_
      have hshape := (List.mem_append.mp hmem).elim (hishapes r) (hrshapes r)
      exact Shape.verify_elements hshape hk

theorem StoredList.verify_iff_storable {l : StoredList} :
    l.verify w = .ok () ↔ ∃ m : ArgList, m.Storable w ∧ m.stored = l := by
  constructor
  · intro h
    obtain ⟨m, hm, rfl⟩ := valid_iff.mp (l.valid_of_verify h)
    exact ⟨m, hm.storable_of_verify h, rfl⟩
  · rintro ⟨m, hm, rfl⟩
    exact hm.verify

end Checking

end CatalogLint
