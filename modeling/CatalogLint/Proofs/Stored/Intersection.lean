import CatalogLint.Proofs.ArgList.Meet
import CatalogLint.Proofs.Stored.Normal

/-!
# Intersection of stored lists

A walk along stored segments finds what the walk along the segments does (`walk_stored`), and the
intersection of stored lists is the stored form of the intersection (`ArgList.intersect_stored`).
Writing out loops up to their common period makes them longer: `ArgList.FitTogether` says what has
to fit the word, for the lists and for their element lists. Where nothing is known of the lists,
`Word.Covers` gives room enough for any two of them.
-/
namespace CatalogLint

/-- Every sum of a number and a product fits the first word, for numbers that fit the second. -/
def Word.Covers (w v : Word) : Prop :=
  ∀ k m n, v.Fits k → v.Fits m → v.Fits n → w.Fits (k + m * n)

section
variable {w v : Word} {m n : ℕ}

theorem Word.Fits.max (hm : v.Fits m) (hn : v.Fits n) : v.Fits (max m n) := by
  rcases max_choice m n with h | h
  · rwa [h]
  · rwa [h]

theorem Word.Covers.fits (h : w.Covers v) (hn : v.Fits n) : w.Fits n := by
  simpa using h n 0 0 hn v.fits_zero v.fits_zero

theorem Word.Covers.mul (h : w.Covers v) (hm : v.Fits m) (hn : v.Fits n) : w.Fits (m * n) := by
  simpa using h 0 m n v.fits_zero hm hn

/-- Numbers of 64 bits have room for the products of all numbers of 32 bits. -/
theorem Word.bits64_covers : Word.bits64.Covers ⟨some (UInt32.size - 1)⟩ := by
  intro k m n hk hm hn
  have hproduct := Nat.mul_le_mul (hm _ rfl) (hn _ rfl)
  have hsum := Nat.add_le_add (hk _ rfl) hproduct
  exact fits_bits64.mpr (Nat.lt_of_le_of_lt hsum (by decide))

/-- Unbounded words have room for everything. -/
theorem Word.covers_unbounded : Word.unbounded.Covers .unbounded :=
  fun _ _ _ _ _ _ => fits_unbounded _

end

section Meeting
variable {w : Word} {s t u : Shape}
  {storedLists : StoredList → StoredList → Checked (Option StoredList)}
  {lists : ArgList → ArgList → Option ArgList}

theorem Shape.stored_plain (k : Kinds) : (Shape.plain k).stored = ⟨k, false, none⟩ := rfl

theorem Shape.stored_compound (k : Kinds) (i r : List Run) :
    (Shape.compound k i r).stored = ⟨k, true, some (ArgList.stored ⟨i, r⟩)⟩ := by
  simp only [Shape.stored, ArgList.stored, Segment.stored, Run.storedList_eq]

/-- Shapes meet as they do, if their element lists do. -/
theorem Shape.meetWith_stored
    (h : ∀ l m, s.elements? = some l → t.elements? = some m →
      storedLists l.stored m.stored = .ok ((lists l m).map ArgList.stored)) :
    s.stored.meetWith storedLists t.stored = .ok ((s.meetWith lists t).map Shape.stored) := by
  cases s with
  | plain k =>
      cases t with
      | plain l =>
          simp only [stored_plain, StoredShape.meetWith, StoredShape.isAny, meetWith,
            Bool.not_false, Bool.and_true]
          split_ifs <;> simp_all [stored_plain]
      | compound l j q =>
          simp only [stored_plain, stored_compound, StoredShape.meetWith, StoredShape.isAny,
            meetWith, Bool.not_false, Bool.not_true, Bool.and_true, Bool.and_false]
          split_ifs <;> simp_all [stored_compound]
  | compound k i r =>
      cases t with
      | plain l =>
          simp only [stored_plain, stored_compound, StoredShape.meetWith, StoredShape.isAny,
            meetWith, Bool.not_false, Bool.not_true, Bool.and_true, Bool.and_false]
          split_ifs <;> simp_all [stored_compound]
      | compound l j q =>
          simp only [stored_compound, StoredShape.meetWith, StoredShape.isAny, meetWith,
            Bool.not_true, Bool.and_true, Bool.and_false, Bool.false_eq_true, if_false, if_true,
            h _ _ rfl rfl, Checked.ok_bind]
          split_ifs
          · cases lists ⟨i, r⟩ ⟨j, q⟩ with
            | none => rfl
            | some m => simp [stored_compound]
          · rfl

/-- What two shapes meet in can be stored, if they can and their element lists meet in such. -/
theorem Shape.Storable.meetWith (hs : s.Storable w) (ht : t.Storable w)
    (hlists : ∀ l m, s.elements? = some l → t.elements? = some m →
      ∀ k ∈ lists l m, k.Storable w)
    (h : s.meetWith lists t = some u) : u.Storable w := by
  have hplain : ∀ k : Kinds, ¬k.isEmpty = true → (Shape.plain k).Storable w :=
    fun k hk => ⟨fun _ => (Bool.not_eq_true _).mp hk, fun m hm => by cases hm⟩
  have hcompound : ∀ (k l : Kinds) (i r : List Run), (Shape.compound l i r).Storable w →
      (Shape.compound k i r).Storable w := fun k l i r hm => ⟨(fun hc => by cases hc), hm.elements⟩
  cases s with
  | plain k =>
      cases t with
      | plain l =>
          simp only [Shape.meetWith] at h
          split_ifs at h with hk hl hkl
          · exact Option.some.inj h ▸ ht
          · exact Option.some.inj h ▸ hs
          · exact Option.some.inj h ▸ hplain _ hkl
      | compound l j q =>
          simp only [Shape.meetWith] at h
          split_ifs at h with hk hkl
          · exact Option.some.inj h ▸ ht
          · exact Option.some.inj h ▸ hcompound _ _ _ _ ht
  | compound k i r =>
      cases t with
      | plain l =>
          simp only [Shape.meetWith] at h
          split_ifs at h with hl hkl
          · exact Option.some.inj h ▸ hs
          · exact Option.some.inj h ▸ hcompound _ _ _ _ hs
      | compound l j q =>
          simp only [Shape.meetWith] at h
          split_ifs at h
          obtain ⟨m, hm, rfl⟩ := Option.map_eq_some_iff.mp h
          refine ⟨(fun hc => by cases hc), fun n hn => ?_⟩
          cases hn
          exact hlists _ _ rfl rfl m hm

end Meeting

namespace Segment
variable {w : Word} {s t c : Segment} {meet : Shape → Shape → Option Shape}

section Walking

/-- The runs ahead on a stored segment: of the first one, some arguments are left. -/
inductive Ahead : StoredSegment.Ahead → Segment → Prop
  | nil {index : ℕ} : Ahead ⟨index, 0, []⟩ []
  | cons {index left : ℕ} {r : Run} {s : Segment} (hleft : 0 < left) :
      Ahead ⟨index, left, r.stored :: s.map Run.stored⟩ (r.withCount left :: s)

theorem ahead_start (hs : Positive s) : Ahead (.start (s.map Run.stored)) s := by
  cases s with
  | nil => exact .nil
  | cons r s =>
      have h := (positive_cons.mp hs).1
      have hcons : Ahead ⟨0, r.count, r.stored :: s.map Run.stored⟩ (r.withCount r.count :: s) :=
        .cons h
      rw [Run.withCount_self] at hcons
      simpa [StoredSegment.Ahead.start] using hcons

/-- Where a walk stops that adds to a segment. -/
def Walk.stored (common : Segment) : Walk → StoredSegment.Walk
  | .exhausted c x y =>
      .exhausted (Segment.stored (common ++ c)) (firstPresence x) (firstPresence y)
  | .contradiction c p => .contradiction (Segment.stored (common ++ c)) p

theorem Walk.stored_cons (common : Segment) (r : Run) (x : Walk) :
    (x.cons r).stored common = x.stored (common ++ [r]) := by
  cases x <;> simp [Walk.cons, Walk.stored]

/-- Walking on leaves the rest of the run, or moves to the next one. -/
theorem Ahead.advance {a : StoredSegment.Ahead} {q : Run} {k : ℕ} (h : Ahead a (q :: s))
    (hs : Positive s) (hk : k ≤ q.count) (hfits : w.Fits (a.index + (s.length + 1))) :
    ∃ b, a.advance w k = .ok b ∧ Ahead b (ArgList.remainder q k ++ s) ∧
      w.Fits (b.index + (ArgList.remainder q k ++ s).length) := by
  cases h with
  | @cons index left r _ hleft =>
      rw [Run.count_withCount] at hk
      dsimp only at hfits
      rw [StoredSegment.Ahead.advance, Checked.sub_eq hk, Checked.ok_bind, ArgList.remainder,
        Run.count_withCount]
      by_cases hend : left = k
      · have hnext : w.Fits (index + 1) := hfits.mono (by omega)
        rw [if_pos (by omega), if_pos hend, Word.add_eq hnext, Checked.ok_bind]
        refine ⟨_, rfl, ?_, hfits.mono ?_⟩
        · cases s with
          | nil => exact .nil
          | cons p s =>
              have hcons : Ahead ⟨index + 1, p.count, p.stored :: s.map Run.stored⟩
                  (p.withCount p.count :: s) := .cons (positive_cons.mp hs).1
              rw [Run.withCount_self] at hcons
              simpa using hcons
        · rw [List.nil_append]
          dsimp only
          omega
      · rw [if_neg (by omega), if_neg hend]
        refine ⟨_, rfl, .cons (by omega), hfits⟩

variable {storedLists : StoredList → StoredList → Checked (Option StoredList)}
  {a b : StoredSegment.Ahead} {q r : Run} {shape : Shape} {steps : ℕ}

/-- One step along runs that meet: what both of them reach is added. -/
theorem walk_step (ha : Ahead a (q :: s)) (hb : Ahead b (r :: t)) (hs : Positive s)
    (ht : Positive t)
    (hmeet : q.shape.stored.meetWith storedLists r.shape.stored = .ok (some shape.stored))
    (hfits : w.Fits (extent c + extent (q :: s))) (hindex : w.Fits (a.index + (s.length + 1)))
    (hindex' : w.Fits (b.index + (t.length + 1))) :
    ∃ a' b', (∀ steps, StoredSegment.walk w storedLists (steps + 1) a b (stored c) =
        StoredSegment.walk w storedLists steps a' b' (stored (c ++
          [⟨min q.count r.count, q.presence.combine r.presence, shape⟩]))) ∧
      Ahead a' (ArgList.remainder q (min q.count r.count) ++ s) ∧
      Ahead b' (ArgList.remainder r (min q.count r.count) ++ t) ∧
      w.Fits (a'.index + (ArgList.remainder q (min q.count r.count) ++ s).length) ∧
      w.Fits (b'.index + (ArgList.remainder r (min q.count r.count) ++ t).length) := by
  obtain ⟨a', ha', hahead, haindex⟩ := ha.advance hs (min_le_left q.count r.count) hindex
  obtain ⟨b', hb', hbhead, hbindex⟩ := hb.advance ht (min_le_right q.count r.count) hindex'
  refine ⟨a', b', ?_, hahead, hbhead, haindex, hbindex⟩
  have hpush : w.Fits (extent c + min q.count r.count) := by
    apply hfits.mono
    rw [extent]
    omega
  cases ha with
  | @cons _ m q _ _ =>
      cases hb with
      | @cons _ n r _ _ =>
          have hrun : q.stored.meetWith storedLists r.stored =
              .ok (.ok ⟨min q.count r.count, q.presence.combine r.presence, shape.stored⟩) := by
            have hmeet : q.shape.stored.meetWith storedLists r.shape.stored =
                .ok (some shape.stored) := hmeet
            simp only [StoredRun.meetWith, Run.shape_stored, hmeet, Checked.ok_bind,
              Run.presence_stored, Run.count_stored, Checked.pure_eq]
          have hcount : StoredRun.withCount ⟨min q.count r.count, q.presence.combine r.presence,
              shape.stored⟩ (min m n) =
                Run.stored ⟨min m n, q.presence.combine r.presence, shape⟩ := rfl
          simp only [Run.count_withCount] at ha' hb' hpush ⊢
          have hpushed : (stored c).push w (Run.stored ⟨min m n, q.presence.combine r.presence,
              shape⟩) = .ok (stored (c ++ [⟨min m n, q.presence.combine r.presence, shape⟩])) :=
            push_stored hpush
          intro steps
          simp only [StoredSegment.walk, hrun, Checked.ok_bind, hcount, hpushed, ha', hb']
          rfl

theorem Ahead.presence_eq (h : Ahead a s) : a.presence = firstPresence s := by
  cases h with
  | nil => rfl
  | cons => simp [StoredSegment.Ahead.presence, firstPresence, Run.withCount]

theorem walk_exhausted (ha : Ahead a s) (hb : Ahead b t) (h : s = [] ∨ t = [])
    (c : StoredSegment) : StoredSegment.walk w storedLists (steps + 1) a b c =
      .ok (.exhausted c (firstPresence s) (firstPresence t)) := by
  rw [← ha.presence_eq, ← hb.presence_eq]
  cases ha with
  | nil => cases hb <;> rfl
  | cons =>
      cases hb with
      | nil => rfl
      | cons => simp at h

theorem walk_contradiction (ha : Ahead a (q :: s)) (hb : Ahead b (r :: t))
    (hmeet : q.shape.stored.meetWith storedLists r.shape.stored = .ok none) (c : StoredSegment) :
    StoredSegment.walk w storedLists (steps + 1) a b c =
      .ok (.contradiction c (q.presence.combine r.presence)) := by
  cases ha with
  | @cons _ m q _ _ =>
      cases hb with
      | @cons _ n r _ _ =>
          have hmeet : q.shape.stored.meetWith storedLists r.shape.stored = .ok none := hmeet
          simp only [StoredSegment.walk, StoredRun.meetWith, Run.shape_stored, hmeet,
            Checked.ok_bind, Run.presence_stored]
          rfl

theorem walk_cons (hmeet : meet q.shape r.shape = some shape) :
    walk meet (q :: s) (r :: t) =
      (walk meet (ArgList.remainder q (min q.count r.count) ++ s)
        (ArgList.remainder r (min q.count r.count) ++ t)).cons
          ⟨min q.count r.count, q.presence.combine r.presence, shape⟩ := by
  rw [walk, hmeet]
  dsimp only
  split_ifs with hlt hgt
  · rw [min_eq_left hlt.le, ArgList.remainder, if_pos rfl, ArgList.remainder, if_neg hlt.ne']
    rfl
  · rw [min_eq_right hgt.le, ArgList.remainder, if_neg hgt.ne', ArgList.remainder, if_pos rfl]
    rfl
  · have heq : q.count = r.count := by omega
    rw [heq, min_self, ArgList.remainder, if_pos heq, ArgList.remainder, if_pos rfl]
    rfl

theorem shape_remainder {k : ℕ} {x : Shape}
    (hx : x ∈ (ArgList.remainder q k ++ s).map Run.shape) : x ∈ (q :: s).map Run.shape := by
  rw [ArgList.remainder] at hx
  split_ifs at hx
  · exact List.mem_cons_of_mem _ hx
  · exact hx

/-- One of two runs is used up. -/
theorem length_remainder_le (q r : Run) :
    (ArgList.remainder q (min q.count r.count)).length +
      (ArgList.remainder r (min q.count r.count)).length ≤ 1 := by
  rw [ArgList.remainder, ArgList.remainder]
  split_ifs <;> simp
  omega

/-- The stored segments are walked along as the segments are. -/
theorem walk_stored (ha : Ahead a s) (hb : Ahead b t) (hs : Positive s) (ht : Positive t)
    (hmeet : ∀ x ∈ s.map Run.shape, ∀ y ∈ t.map Run.shape,
      x.stored.meetWith storedLists y.stored = .ok ((meet x y).map Shape.stored))
    (hsteps : s.length + t.length < steps) (hfits : w.Fits (extent c + extent s))
    (hindex : w.Fits (a.index + s.length)) (hindex' : w.Fits (b.index + t.length)) :
    StoredSegment.walk w storedLists steps a b (stored c) = .ok ((walk meet s t).stored c) := by
  induction steps generalizing s t c a b with
  | zero => cases hsteps
  | succ steps ih =>
      match s, t with
      | [], t => rw [walk, Walk.stored, List.append_nil, walk_exhausted ha hb (.inl rfl)]
      | q :: s, [] => rw [walk, Walk.stored, List.append_nil, walk_exhausted ha hb (.inr rfl)]
      | q :: s, r :: t =>
          have hhead := hmeet q.shape List.mem_cons_self r.shape List.mem_cons_self
          obtain ⟨hq, hspos⟩ := positive_cons.mp hs
          obtain ⟨hr, htpos⟩ := positive_cons.mp ht
          cases hqr : meet q.shape r.shape with
          | none =>
              rw [hqr] at hhead
              rw [walk, hqr, walk_contradiction ha hb hhead]
              simp [Walk.stored]
          | some shape =>
              rw [hqr] at hhead
              obtain ⟨a', b', hstep, ha', hb', hindex, hindex'⟩ :=
                walk_step ha hb hspos htpos hhead hfits hindex hindex'
              rw [hstep, walk_cons hqr, Walk.stored_cons]
              refine ih ha' hb'
                (positive_append.mpr ⟨ArgList.positive_remainder (min_le_left _ _), hspos⟩)
                (positive_append.mpr ⟨ArgList.positive_remainder (min_le_right _ _), htpos⟩)
                (fun x hx y hy => hmeet x (shape_remainder hx) y (shape_remainder hy)) ?_ ?_ hindex
                hindex'
              · -- one of the two runs has been used up
                have := length_remainder_le q r
                simp only [List.length_append, List.length_cons] at hsteps ⊢
                omega
              · rw [extent_concat, extent_append, ArgList.extent_remainder]
                apply hfits.mono
                rw [extent]
                dsimp only
                omega

/-- Two segments are walked along from their beginnings. -/
theorem walkAll_stored (hs : Positive s) (ht : Positive t)
    (hmeet : ∀ x ∈ s.map Run.shape, ∀ y ∈ t.map Run.shape,
      x.stored.meetWith storedLists y.stored = .ok ((meet x y).map Shape.stored))
    (hfits : w.Fits (extent s)) (hfits' : w.Fits (extent t)) :
    StoredSegment.walkAll w storedLists (stored s) (stored t) .empty =
      .ok ((walk meet s t).stored []) := by
  have hlength : w.Fits (0 + s.length) := by
    rw [Nat.zero_add]
    exact hfits.mono (length_le_extent hs)
  have hlength' : w.Fits (0 + t.length) := by
    rw [Nat.zero_add]
    exact hfits'.mono (length_le_extent ht)
  have hsum : w.Fits (extent [] + extent s) := by rwa [extent, Nat.zero_add]
  rw [StoredSegment.walkAll]
  exact walk_stored (ahead_start hs) (ahead_start ht) hs ht hmeet (by simp) hsum hlength hlength'

/-- The common segment, whichever way the walk stops. -/
def Walk.common : Walk → Segment
  | .exhausted c _ _ | .contradiction c _ => c

theorem extent_common_walk (hs : Positive s) (ht : Positive t) :
    extent (walk meet s t).common ≤ extent s := by
  have h : (walk meet s t).Finds meet _ _ := walk_finds hs ht
  have hle : ∀ {u v z : List Cell} {c : Segment}, cells s = u ++ z → Met meet u v (cells c) →
      extent c ≤ extent s := by
    intro u v z c hu hmet
    have := congrArg List.length hu
    rw [List.length_append, hmet.length_left, length_cells, length_cells] at this
    exact this ▸ Nat.le_add_right _ _
  cases hwalk : walk meet s t with
  | exhausted c x y =>
      rw [hwalk] at h
      obtain ⟨⟨u, v, hu, -, hmet⟩, -⟩ := h
      exact hle hu hmet
  | contradiction c p =>
      rw [hwalk] at h
      obtain ⟨⟨u, v, d, e, u', v', hu, -, hmet, -⟩, -⟩ := h
      exact hle hu hmet

end Walking

end Segment

namespace ArgList
variable {w v : Word} {a b l : ArgList} {s : Segment} {p : Option Presence}

theorem endBefore_stored (hs : Segment.Positive s) :
    StoredList.endBefore ⟨Segment.stored s, .empty⟩ p = .ok ((endBefore s p).map stored) := by
  have hbacktrack := backtrack_stored (l := finite s) rfl ⟨hs, Segment.positive_nil⟩
  match p with
  | none => rfl
  | some .optional => rfl
  | some .required => exact hbacktrack

section Aligning

/-- The extent of the longer initial segment and of the shortest loop of both periods. -/
def sharedExtent (a b : ArgList) : ℕ :=
  max (Segment.extent a.initial) (Segment.extent b.initial) +
    (Segment.extent a.repeated).lcm (Segment.extent b.repeated)

theorem sharedExtent_comm (a b : ArgList) : a.sharedExtent b = b.sharedExtent a := by
  rw [sharedExtent, sharedExtent, max_comm, Nat.lcm_comm]

/-- Writing a loop out up to the common period gives a loop of that period. -/
theorem fits_turns (h : w.Fits (a.sharedExtent b)) :
    w.Fits (Segment.extent a.repeated * (Segment.extent b.repeated /
      (Segment.extent a.repeated).gcd (Segment.extent b.repeated))) := by
  rw [← Nat.mul_div_assoc _ (Nat.gcd_dvd_right _ _)]
  exact h.mono (Nat.le_add_left _ _)

theorem fits_turns' (h : w.Fits (a.sharedExtent b)) :
    w.Fits (Segment.extent b.repeated * (Segment.extent a.repeated /
      (Segment.extent a.repeated).gcd (Segment.extent b.repeated))) := by
  rw [Nat.gcd_comm]
  exact fits_turns (sharedExtent_comm a b ▸ h)

theorem alignLoops_stored (ha : a.Storable w) (h : w.Fits (a.sharedExtent b)) :
    StoredList.alignLoops w a.stored b.stored =
      .ok ((a.unfold (Segment.extent b.repeated /
          (Segment.extent a.repeated).gcd (Segment.extent b.repeated))).stored,
        (b.unfold (Segment.extent a.repeated /
          (Segment.extent a.repeated).gcd (Segment.extent b.repeated))).stored) := by
  have hzero : ∀ l : ArgList, l.unfold 0 = l := fun l => if_pos (Nat.zero_le 1)
  rw [StoredList.alignLoops, isFinite_stored, isFinite_stored]
  cases hafin : a.isFinite with
  | true =>
      have hloop := isFinite_iff.mp hafin
      simp only [hloop, unfold_of_finite, Segment.extent, Nat.zero_div, hzero]
      rfl
  | false =>
      cases hbfin : b.isFinite with
      | true =>
          have hloop := isFinite_iff.mp hbfin
          simp only [hloop, unfold_of_finite, Segment.extent, Nat.zero_div, hzero]
          rfl
      | false =>
          have hm : 0 < Segment.extent a.repeated :=
            Nat.pos_of_ne_zero (ha.positive.isFinite_eq.not.mp (by simp [hafin]))
          have hgcd := Nat.gcd_pos_of_pos_left (Segment.extent b.repeated) hm
          simp only [Bool.not_false, Bool.and_self, if_true, repeated_stored,
            Segment.length_stored, Checked.div_eq hgcd, Checked.ok_bind,
            unfold_stored (fits_turns h), unfold_stored (fits_turns' h), Checked.pure_eq]

theorem alignInitials_stored {k : ℕ} (ha : a.Storable w) (hb : b.Storable w)
    (hk : max (Segment.extent a.initial) (Segment.extent b.initial) = k) :
    StoredList.alignInitials w a.stored b.stored =
      .ok ((a.rotate k).stored, (b.rotate k).stored) := by
  have hfits : w.Fits k := hk ▸ ha.initial.max hb.initial
  simp only [StoredList.alignInitials, initial_stored, Segment.length_stored, hk,
    rotate_stored ha (hk ▸ le_max_left _ _) hfits, rotate_stored hb (hk ▸ le_max_right _ _) hfits,
    Checked.ok_bind, Checked.pure_eq]

theorem Storable.alignTo (ha : a.Storable w) (hb : b.Storable w)
    (h : w.Fits (a.sharedExtent b)) : (a.alignTo b).Storable w :=
  (ha.unfold (fits_turns h)).rotate (ha.initial.max hb.initial)

theorem alignTo_stored (ha : a.Storable w) (hb : b.Storable w) (h : w.Fits (a.sharedExtent b)) :
    StoredList.alignInitials w
        (a.unfold (Segment.extent b.repeated /
          (Segment.extent a.repeated).gcd (Segment.extent b.repeated))).stored
        (b.unfold (Segment.extent a.repeated /
          (Segment.extent a.repeated).gcd (Segment.extent b.repeated))).stored =
      .ok ((a.alignTo b).stored, (b.alignTo a).stored) := by
  rw [alignInitials_stored (ha.unfold (fits_turns h)) (hb.unfold (fits_turns' h)) rfl]
  simp only [alignTo, initial_unfold, Nat.gcd_comm (Segment.extent b.repeated),
    max_comm (Segment.extent b.initial)]

/-- One turn of the aligned loop can be appended to the initial segment. -/
theorem fits_alignTo (ha : a.Positive) (hb : b.Positive) (h : w.Fits (a.sharedExtent b))
    (hafin : (a.alignTo b).isFinite = false) (hbfin : (b.alignTo a).isFinite = false) :
    w.Fits (Segment.extent (a.alignTo b).initial + Segment.extent (a.alignTo b).repeated) := by
  rw [isFinite_alignTo ha] at hafin
  rw [isFinite_alignTo hb] at hbfin
  have hn : 0 < Segment.extent b.repeated :=
    Nat.pos_of_ne_zero (hb.isFinite_eq.not.mp (by simp [hbfin]))
  have hturns : 1 ≤ Segment.extent b.repeated /
      (Segment.extent a.repeated).gcd (Segment.extent b.repeated) :=
    Nat.div_pos (Nat.gcd_le_right _ hn) (Nat.gcd_pos_of_pos_right _ hn)
  rw [extent_initial_alignTo ha hafin, extent_repeated_alignTo, max_eq_left hturns, Nat.mul_comm,
    ← Nat.mul_div_assoc _ (Nat.gcd_dvd_right _ _)]
  exact h

end Aligning

section Walking
variable {storedLists : StoredList → StoredList → Checked (Option StoredList)}
  {meet : Shape → Shape → Option Shape}

theorem firstLoopPresence_stored (l : ArgList) :
    l.stored.firstLoopPresence = Segment.firstPresence l.repeated := by
  simp [StoredList.firstLoopPresence, Segment.firstPresence, Function.comp_def]

theorem firstPresence_append (s t : Segment) : Segment.firstPresence (s ++ t) =
    (Segment.firstPresence s).or (Segment.firstPresence t) := by
  cases s <;> simp [Segment.firstPresence]

/-- The presence of the argument that is next where one of two lists has ended. -/
theorem presence_of_ended (h : Aligned a b) (hb : b.isFinite = false) {x y : Segment} {k : ℕ}
    (hafin : a.isFinite = true) (hx : Segment.Positive x) (hy : Segment.Positive y)
    (hxy : x = [] ∨ y = []) (hex : Segment.extent a.initial = k + Segment.extent x)
    (hey : Segment.extent b.initial = k + Segment.extent y) :
    (Segment.firstPresence y).or (Segment.firstPresence b.repeated) =
      Segment.firstPresence (x ++ a.repeated ++ y ++ b.repeated) := by
  have hloop : b.repeated ≠ [] := by
    rw [Ne, ← isFinite_iff, hb]
    nofun
  have hnil : x ++ a.repeated = [] := by
    rcases h.rest_eq_nil (by rw [hafin, Bool.true_or]) hx hy hxy hex hey with hnil | hnil
    · exact hnil
    · exact absurd (List.append_eq_nil_iff.mp hnil).2 hloop
  rw [hnil, List.nil_append, firstPresence_append]

/-- The loops are walked along, after what the initial segments have in common. -/
theorem walkLoops_stored {c : Segment} (ha : a.Storable w) (hb : b.Storable w)
    (hc : Segment.Positive c) (hfits : w.Fits (Segment.extent c + Segment.extent a.repeated))
    (hmeet : ∀ q ∈ a.repeated, ∀ r ∈ b.repeated,
      q.shape.stored.meetWith storedLists r.shape.stored =
        .ok ((meet q.shape r.shape).map Shape.stored)) :
    (do
      match ← StoredSegment.walkAll w storedLists a.stored.repeated b.stored.repeated .empty with
      | .contradiction d p => do
          let l ← StoredList.appendLoop w ⟨Segment.stored c, d⟩
          l.endBefore (some p)
      | .exhausted d _ _ => return some ⟨Segment.stored c, d⟩) =
      .ok ((match Segment.walk meet a.repeated b.repeated with
        | .contradiction d p => endBefore (c ++ d) (some p)
        | .exhausted d _ _ => some ⟨c, d⟩).map stored) := by
  have hwalk : StoredSegment.walkAll w storedLists (Segment.stored a.repeated)
      (Segment.stored b.repeated) .empty =
        .ok ((Segment.walk meet a.repeated b.repeated).stored []) := by
    refine Segment.walkAll_stored ha.positive.2 hb.positive.2 ?_ ha.repeated hb.repeated
    simp only [List.forall_mem_map]
    exact hmeet
  have hfinds : (Segment.walk meet a.repeated b.repeated).Finds meet _ _ :=
    Segment.walk_finds ha.positive.2 hb.positive.2
  have hextent : Segment.extent (Segment.walk meet a.repeated b.repeated).common ≤ _ :=
    Segment.extent_common_walk ha.positive.2 hb.positive.2
  rw [repeated_stored, repeated_stored, hwalk, Checked.ok_bind]
  cases hloop : Segment.walk meet a.repeated b.repeated with
  | contradiction d p =>
      rw [hloop] at hfinds hextent
      have happend : StoredList.appendLoop w ⟨Segment.stored c, Segment.stored d⟩ =
          .ok ⟨Segment.stored (c ++ d), .empty⟩ :=
        appendLoop_stored (l := ⟨c, d⟩) (hfits.mono (Nat.add_le_add_left hextent _))
      rw [Segment.Walk.stored, List.nil_append]
      dsimp only
      rw [happend, Checked.ok_bind, endBefore_stored (Segment.positive_append.mpr ⟨hc, hfinds.2⟩)]
  | exhausted d _ _ => rfl

theorem walkLists_stored (ha : a.Storable w) (hb : b.Storable w) (h : Aligned a b)
    (hsum : a.isFinite = false → b.isFinite = false →
      w.Fits (Segment.extent a.initial + Segment.extent a.repeated))
    (hmeet : ∀ q ∈ a.runs, ∀ r ∈ b.runs, q.shape.stored.meetWith storedLists r.shape.stored =
      .ok ((meet q.shape r.shape).map Shape.stored)) :
    StoredList.walkLists w storedLists a.stored b.stored =
      .ok ((sideBySide meet a b).map stored) := by
  have hwalk : StoredSegment.walkAll w storedLists (Segment.stored a.initial)
      (Segment.stored b.initial) .empty =
        .ok ((Segment.walk meet a.initial b.initial).stored []) := by
    refine Segment.walkAll_stored ha.positive.1 hb.positive.1 ?_ ha.initial hb.initial
    simp only [List.forall_mem_map]
    exact fun q hq r hr => hmeet q (List.mem_append_left _ hq) r (List.mem_append_left _ hr)
  have hfinds : (Segment.walk meet a.initial b.initial).Finds meet _ _ :=
    Segment.walk_finds ha.positive.1 hb.positive.1
  have hextent : Segment.extent (Segment.walk meet a.initial b.initial).common ≤ _ :=
    Segment.extent_common_walk ha.positive.1 hb.positive.1
  rw [StoredList.walkLists, initial_stored, initial_stored, hwalk, Checked.ok_bind, sideBySide]
  cases hinitial : Segment.walk meet a.initial b.initial with
  | contradiction c p =>
      rw [hinitial] at hfinds
      exact endBefore_stored hfinds.2
  | exhausted c x y =>
      rw [hinitial] at hfinds hextent
      obtain ⟨⟨u, v, hu, hv, hmet⟩, hxy, hc, hx, hy⟩ := hfinds
      have hea := congrArg List.length hu
      have heb := congrArg List.length hv
      simp only [List.length_append, Segment.length_cells, hmet.length_left,
        hmet.length_right] at hea heb
      rw [Segment.Walk.stored, List.nil_append]
      dsimp only
      rw [isFinite_stored, isFinite_stored]
      cases hafin : a.isFinite with
      | true =>
          cases hbfin : b.isFinite with
          | true =>
              dsimp only
              rw [endBefore_stored hc, isFinite_iff.mp hafin, isFinite_iff.mp hbfin,
                List.append_nil, List.append_nil, firstPresence_append]
              rfl
          | false =>
              dsimp only
              rw [firstLoopPresence_stored,
                presence_of_ended h hbfin hafin hx hy hxy hea heb, endBefore_stored hc]
              rfl
      | false =>
          cases hbfin : b.isFinite with
          | true =>
              obtain ⟨q, loop, hloop⟩ := List.exists_cons_of_ne_nil
                ((isFinite_iff (l := a)).not.mp (by simp [hafin]))
              have hnext : Segment.firstPresence (x ++ a.repeated ++ y ++ b.repeated) =
                  (Segment.firstPresence x).or (Segment.firstPresence a.repeated) := by
                cases x <;> simp [hloop, Segment.firstPresence]
              dsimp only
              rw [firstLoopPresence_stored, endBefore_stored hc, hnext]
              rfl
          | false =>
              have hloops := (hsum hafin hbfin).mono (Nat.add_le_add_right hextent _)
              exact walkLoops_stored ha hb hc hloops fun q hq r hr =>
                hmeet q (List.mem_append_right _ hq) r (List.mem_append_right _ hr)

theorem extent_endBefore (h : endBefore s p = some l) :
    Segment.extent l.initial ≤ Segment.extent s ∧ l.repeated = [] := by
  match p with
  | none | some .optional =>
      cases h
      exact ⟨Nat.le_refl _, rfl⟩
  | some .required => exact ⟨extent_backtrack h, repeated_backtrack h⟩

/-- The common list is no longer than the first of the aligned lists; where the loops do not meet,
it ends before they have been written out once. -/
theorem fits_sideBySide (ha : a.Storable w) (hb : b.Positive)
    (hsum : a.isFinite = false → b.isFinite = false →
      w.Fits (Segment.extent a.initial + Segment.extent a.repeated))
    (h : sideBySide meet a b = some l) :
    w.Fits (Segment.extent l.initial) ∧ w.Fits (Segment.extent l.repeated) := by
  have hextent : Segment.extent (Segment.walk meet a.initial b.initial).common ≤ _ :=
    Segment.extent_common_walk ha.positive.1 hb.1
  have hextent' : Segment.extent (Segment.walk meet a.repeated b.repeated).common ≤ _ :=
    Segment.extent_common_walk ha.positive.2 hb.2
  have hended : ∀ {s p}, endBefore s p = some l → w.Fits (Segment.extent s) →
      w.Fits (Segment.extent l.initial) ∧ w.Fits (Segment.extent l.repeated) := by
    intro s p h hs
    obtain ⟨hinitial, hrepeated⟩ := extent_endBefore h
    rw [hrepeated]
    exact ⟨hs.mono hinitial, w.fits_zero⟩
  rw [sideBySide] at h
  cases hwalk : Segment.walk meet a.initial b.initial with
  | contradiction c p =>
      rw [hwalk] at h hextent
      exact hended h (ha.initial.mono hextent)
  | exhausted c x y =>
      rw [hwalk] at h hextent
      dsimp only at h
      split_ifs at h with hfin
      · exact hended h (ha.initial.mono hextent)
      · cases hloop : Segment.walk meet a.repeated b.repeated with
        | contradiction d p =>
            rw [hloop] at h hextent'
            simp only [Bool.or_eq_true, not_or, Bool.not_eq_true] at hfin
            refine hended h ((hsum hfin.1 hfin.2).mono ?_)
            rw [Segment.extent_append]
            exact Nat.add_le_add hextent hextent'
        | exhausted d _ _ =>
            rw [hloop] at h hextent'
            cases h
            exact ⟨ha.initial.mono hextent, ha.repeated.mono hextent'⟩

theorem Storable.sideBySide (ha : a.Storable w) (hb : b.Storable w) (h : Aligned a b)
    (hsum : a.isFinite = false → b.isFinite = false →
      w.Fits (Segment.extent a.initial + Segment.extent a.repeated))
    (hmeet : ∀ q ∈ a.runs, ∀ r ∈ b.runs, ∀ t, meet q.shape r.shape = some t → t.Storable w)
    (hl : sideBySide meet a b = some l) : l.Storable w := by
  have houtcome : Outcome meet _ _ (ArgList.sideBySide meet a b) :=
    outcome_sideBySide ha.positive hb.positive h
  obtain ⟨hinitial, hrepeated⟩ := fits_sideBySide ha hb.positive hsum hl
  rw [hl] at houtcome
  refine .of_cells (houtcome.positive l rfl) hinitial hrepeated fun n e he => ?_
  obtain ⟨⟨c, d, t, hc, hd, ht⟩, hcommon⟩ := houtcome.cells_of_some he
  obtain ⟨q, hq, rfl⟩ := mem_runs_of_cellAt hc
  obtain ⟨r, hr, rfl⟩ := mem_runs_of_cellAt hd
  rw [hc, hd, Cell.common, ht, Option.some.injEq] at hcommon
  rw [← hcommon]
  exact hmeet q hq r hr t ht

end Walking

section Intersecting
variable {storedLists : StoredList → StoredList → Checked (Option StoredList)}
  {lists : ArgList → ArgList → Option ArgList}

theorem intersectWith_stored (ha : a.Storable w) (hb : b.Storable w)
    (h : w.Fits (a.sharedExtent b))
    (hlists : ∀ q ∈ a.runs, ∀ r ∈ b.runs, ∀ l m, q.shape.elements? = some l →
      r.shape.elements? = some m → storedLists l.stored m.stored = .ok ((lists l m).map stored) ∧
        ∀ k ∈ lists l m, k.Storable w) :
    StoredList.intersectWith w storedLists a.stored b.stored =
        .ok ((intersectWith lists a b).map stored) ∧
      ∀ l ∈ intersectWith lists a b, l.Storable w := by
  have haw := ha.alignTo hb h
  have hbw := hb.alignTo ha (sharedExtent_comm a b ▸ h)
  have haligned := aligned_alignTo ha.positive hb.positive
  have hsum := fits_alignTo ha.positive hb.positive h
  have hshapes : ∀ q ∈ (a.alignTo b).runs, ∀ r ∈ (b.alignTo a).runs,
      ∃ q' ∈ a.runs, ∃ r' ∈ b.runs, q'.shape = q.shape ∧ r'.shape = r.shape := by
    intro q hq r hr
    obtain ⟨q', hq', hqs⟩ := exists_run_alignTo ha.positive hq
    obtain ⟨r', hr', hrs⟩ := exists_run_alignTo hb.positive hr
    exact ⟨q', hq', r', hr', hqs, hrs⟩
  have hwalk := walkLists_stored haw hbw haligned hsum fun q hq r hr => by
    obtain ⟨q', hq', r', hr', hqs, hrs⟩ := hshapes q hq r hr
    rw [← hqs, ← hrs]
    exact Shape.meetWith_stored fun l m hl hm => (hlists q' hq' r' hr' l m hl hm).1
  have hcommon : ∀ l ∈ sideBySide (Shape.meetWith lists) (a.alignTo b) (b.alignTo a),
      l.Storable w := by
    intro l hl
    refine Storable.sideBySide haw hbw haligned hsum (fun q hq r hr t ht => ?_) hl
    obtain ⟨q', hq', r', hr', hqs, hrs⟩ := hshapes q hq r hr
    rw [← hqs, ← hrs] at ht
    exact Shape.Storable.meetWith (ha.shape hq') (hb.shape hr')
      (fun l m hl hm => (hlists q' hq' r' hr' l m hl hm).2) ht
  rw [intersectWith_eq]
  refine ⟨?_, fun l hl => ?_⟩
  · rw [StoredList.intersectWith, ha.verify, Checked.ok_bind, hb.verify, Checked.ok_bind,
      alignLoops_stored ha h, Checked.ok_bind]
    dsimp only
    rw [alignTo_stored ha hb h, Checked.ok_bind]
    dsimp only
    rw [hwalk, Checked.ok_bind]
    cases hside : sideBySide (Shape.meetWith lists) (a.alignTo b) (b.alignTo a) with
    | none => rfl
    | some l =>
        dsimp only [Option.map_some]
        rw [normalizeOutermost_stored (hcommon l hside)]
        rfl
  · obtain ⟨k, hk, rfl⟩ := Option.map_eq_some_iff.mp hl
    exact (hcommon k hk).normalizeOutermost

/-- What the intersection writes out fits the word, for the lists and for every two of their element
lists. -/
inductive FitTogether (w : Word) : ArgList → ArgList → Prop
  | intro {a b : ArgList} (lengths : w.Fits (a.sharedExtent b))
      (elements : ∀ q ∈ a.runs, ∀ r ∈ b.runs, ∀ l m, q.shape.elements? = some l →
        r.shape.elements? = some m → FitTogether w l m) :
      FitTogether w a b

theorem FitTogether.symm (h : FitTogether w a b) : FitTogether w b a := by
  induction h with
  | @intro a b lengths _ ih =>
      exact .intro (sharedExtent_comm a b ▸ lengths) fun r hr q hq l m hl hm =>
        ih q hq r hr m l hm hl

theorem intersectTo_stored {d : ℕ} (ha : a.Storable w) (hb : b.Storable w)
    (h : FitTogether w a b) (hd : min a.depth b.depth ≤ d) :
    StoredList.intersectTo w d a.stored b.stored = .ok ((intersectTo d a b).map stored) ∧
      ∀ l ∈ intersectTo d a b, l.Storable w := by
  induction d generalizing a b with
  | zero =>
      obtain ⟨lengths, -⟩ := h
      refine intersectWith_stored ha hb lengths fun q hq r hr l m hl hm => ?_
      have := depth_lt_of_mem hq hl
      have := depth_lt_of_mem hr hm
      omega
  | succ d ih =>
      obtain ⟨lengths, elements⟩ := h
      refine intersectWith_stored ha hb lengths fun q hq r hr l m hl hm => ?_
      have := depth_lt_of_mem hq hl
      have := depth_lt_of_mem hr hm
      exact ih ((ha.shape hq).elements l hl) ((hb.shape hr).elements m hm)
        (elements q hq r hr l m hl hm) (by omega)

/-- Stored lists are intersected as lists are. -/
theorem intersect_stored (ha : a.Storable w) (hb : b.Storable w) (h : FitTogether w a b) :
    a.stored.intersect w b.stored = .ok ((a.intersect b).map stored) := by
  rw [StoredList.intersect, depth_stored, depth_stored]
  exact (intersectTo_stored ha hb h (Nat.le_refl _)).1

theorem Storable.intersect (ha : a.Storable w) (hb : b.Storable w) (h : FitTogether w a b)
    (hl : a.intersect b = some l) : l.Storable w :=
  (intersectTo_stored ha hb h (Nat.le_refl _)).2 l hl

theorem Storable.fits_sharedExtent (ha : a.Storable v) (hb : b.Storable v) (hcovers : w.Covers v) :
    w.Fits (a.sharedExtent b) :=
  (hcovers _ _ _ (ha.initial.max hb.initial) ha.repeated hb.repeated).mono
    (Nat.add_le_add_left (Nat.div_le_self _ _) _)

/-- Lists of a much smaller word always fit together. -/
theorem Storable.fitTogether (ha : a.Storable v) (hb : b.Storable v) (hcovers : w.Covers v) :
    FitTogether w a b := by
  induction ha generalizing b with
  | @intro a positive initial repeated types elements ih =>
      have ha : a.Storable v := .intro positive initial repeated types elements
      exact .intro (ha.fits_sharedExtent hb hcovers) fun q hq r hr l m hl hm =>
        ih q hq l hl ((hb.shape hr).elements m hm)

end Intersecting

end ArgList

end CatalogLint
