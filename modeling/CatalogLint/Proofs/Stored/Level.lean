import CatalogLint.Proofs.Format.Recovery
import CatalogLint.Proofs.Stored.Bounds
import CatalogLint.Stored.Reading

/-!
# Levels in machine numbers

What a directive adds to a level is added to the stored level without a defect, as long as one more
argument than the level has numbers for can be counted (`Level.Holds.add_stored`). No reference
makes the numbers of a level larger by more than one, but for those that are written out
(`Level.Bounded`).
-/
namespace CatalogLint

namespace ArgList

/-- A list that covers at most `n` arguments before its loop, and one in it. -/
structure Bounded (n : ℕ) (l : ArgList) : Prop where
  storable : l.Storable .bits64
  initial : Segment.extent l.initial ≤ n
  repeated : Segment.extent l.repeated ≤ 1

variable {l : ArgList} {k n first last : ℕ} {t : Shape}

theorem Bounded.mono {m : ℕ} (h : l.Bounded m) (hmn : m ≤ n) : l.Bounded n :=
  ⟨h.storable, h.initial.trans hmn, h.repeated⟩

theorem bounded_unconstrained : unconstrained.Bounded 0 := by
  refine ⟨?_, Nat.le_refl 0, Nat.le_refl 1⟩
  have hsettled := open_unconstrained.settled
  have hpositive := open_unconstrained.requires.positive
  refine storable_iff.mpr ⟨hpositive, Word.fits_zero _, ?_, fun r hr => ?_⟩
  · rw [Word.fits_bits64]
    decide
  · exact (hsettled.storable hpositive r hr).mono Word.covers_two

theorem Open.requireShape_stored (h : l.Open k) (hl : l.Bounded n) (ht : t.Settled)
    (hle : first ≤ last) (hlast : last < n) (hfits : Word.bits64.Fits n) :
    l.stored.requireShape .bits64 first last t.stored =
        .ok ((l.requireShape first last t).map stored) ∧
      ∀ m ∈ l.requireShape first last t, m.Bounded n := by
  have hfits := hfits.mono (Nat.succ_le_of_lt hlast)
  obtain ⟨hstored, hstorable⟩ := ArgList.requireShape_stored hl.storable
    (h.settled.storable h.requires.positive) ht.storable Word.covers_two hle hfits
  refine ⟨hstored, fun m hm => ?_⟩
  have hopen := h.requireShape ht hle
  rw [hm] at hopen
  obtain ⟨hinitial, hrepeated⟩ :=
    extent_requireShape hl.storable hle hfits hm hopen.1.isFinite_eq
  have := hl.initial
  have := hl.repeated
  exact ⟨hstorable m hm, by omega, by omega⟩

theorem Open.restrictFrom_stored (h : l.Open k) (hl : l.Bounded n) (ht : t.Settled)
    (hfirst : first < k) (hbefore : ∀ x, l.Admits first x → x.Fits t) (hn : first < n)
    (hfits : Word.bits64.Fits (n + 1)) :
    l.stored.restrictFrom .bits64 (first + 1) t.stored =
        .ok ((l.restrictFrom (first + 1) t).map stored) ∧
      ∀ m ∈ l.restrictFrom (first + 1) t, m.Bounded n := by
  have hinitial := hl.initial
  have hrepeated := hl.repeated
  obtain ⟨hstored, hstorable⟩ := ArgList.restrictFrom_stored hl.storable
    (h.settled.storable h.requires.positive) ht.storable Word.covers_two
    (h.reaches (first + 1)) (hfits.mono (by omega))
  refine ⟨hstored, fun m hm => ?_⟩
  have hopen := h.restrictFrom ht hfirst hbefore
  rw [hm] at hopen
  obtain ⟨hi, hr⟩ := extent_restrictFrom h.requires.positive (h.reaches (first + 1)) hm
    hopen.1.isFinite_eq
  exact ⟨hstorable m hm, by omega, by omega⟩

end ArgList

/-- The numbers in it are at most `n`. -/
def Position.Within (n : ℕ) : Position → Prop
  | .next => True
  | .single m | .toLast m => m ≤ n
  | .range _ m => m ≤ n

theorem Position.Within.mono {m n : ℕ} {p : Position} (h : p.Within m) (hmn : m ≤ n) :
    p.Within n := by
  cases p with
  | next => trivial
  | single k => exact Nat.le_trans h hmn
  | range j k => exact Nat.le_trans h hmn
  | toLast k => exact Nat.le_trans h hmn

namespace Level
open Use

/-- The level as it is stored, while so many directives are counted. -/
def storedAs (l : Level) (directives : ℕ) : StoredLevel :=
  ⟨directives, l.deliberate, l.arguments.map ArgList.stored, l.used⟩

def stored (l : Level) : StoredLevel :=
  l.storedAs l.directives

/-- The numbers of the level are at most `n`. -/
structure Bounded (n : ℕ) (l : Level) : Prop where
  directives : l.directives ≤ n
  deliberate : l.deliberate ≤ n
  used : ∀ k ∈ l.used, k ≤ n
  arguments : ∀ a ∈ l.arguments, a.Bounded n

/-- Both levels have counted the same directives. -/
def SameCounts (l m : Level) : Prop :=
  l.directives = m.directives ∧ l.deliberate = m.deliberate

variable {l : Level} {us : List Use} {t : Shape} {d n first last : ℕ}

theorem SameCounts.trans {a b c : Level} (h : a.SameCounts b) (h' : b.SameCounts c) :
    a.SameCounts c :=
  ⟨h.1.trans h'.1, h.2.trans h'.2⟩

theorem Bounded.mono {m : ℕ} (h : l.Bounded m) (hmn : m ≤ n) : l.Bounded n :=
  ⟨h.directives.trans hmn, h.deliberate.trans hmn, fun k hk => (h.used k hk).trans hmn,
    fun a ha => (h.arguments a ha).mono hmn⟩

theorem bounded_outset : outset.Bounded 0 := by
  refine ⟨Nat.le_refl 0, Nat.le_refl 0, ?_, ?_⟩
  · rintro k ⟨⟩
    exact Nat.le_refl 0
  · rintro a ⟨⟩
    exact ArgList.bounded_unconstrained

theorem Holds.require_stored (h : l.Holds us) (hb : l.Bounded n) (ht : t.Settled)
    (hle : first ≤ last) (hlast : last < n) (hfits : Word.bits64.Fits n) :
    (l.storedAs d).require .bits64 first last t.stored = .ok ((l.require first last t).storedAs d) ∧
      (l.require first last t).Bounded n := by
  have hreflects := h.arguments
  have hlist := hb.arguments
  rw [StoredLevel.require, storedAs]
  dsimp only
  cases ha : l.arguments with
  | none =>
      have hsame : l.require first last t = l := by
        rw [Level.require, ha, Option.bind_none, ← ha]
      rw [hsame]
      refine ⟨?_, hb⟩
      rw [storedAs, ha]
      rfl
  | some a =>
      rw [ha] at hreflects
      obtain ⟨hstored, hbounded⟩ :=
        hreflects.1.requireShape_stored (hlist a ha) ht hle hlast hfits
      have hrequire : (l.require first last t).arguments = a.requireShape first last t := by
        rw [Level.require, ha, Option.bind_some]
      rw [Option.map_some]
      dsimp only
      rw [hstored]
      refine ⟨?_, hb.directives, hb.deliberate, hb.used, ?_⟩
      · rw [storedAs, hrequire]
        rfl
      · rw [hrequire]
        exact hbounded

/-- To constrain all arguments from one on, once that one is required and has the shape. -/
theorem Holds.restrictFrom_stored (h : l.Holds us) (hb : l.Bounded n) (ht : t.Settled)
    (hfirst : first < n) (hfits : Word.bits64.Fits (n + 1)) :
    ((l.require first first t).storedAs d).restrictFrom .bits64 (first + 1) t.stored =
        .ok ({ l.require first first t with
          arguments := (l.require first first t).arguments.bind
            (·.restrictFrom (first + 1) t) }.storedAs d) ∧
      ∀ a ∈ (l.require first first t).arguments.bind (·.restrictFrom (first + 1) t),
        a.Bounded n := by
  have hreflects := h.arguments
  have hlist := (h.require_stored (d := d) hb ht (Nat.le_refl first) hfirst
    (hfits.mono (Nat.le_succ n))).2.arguments
  rw [StoredLevel.restrictFrom, storedAs]
  dsimp only
  cases hm : (l.require first first t).arguments with
  | none => exact ⟨rfl, by simp⟩
  | some m =>
      have hm' : l.arguments.bind (·.requireShape first first t) = some m := hm
      obtain ⟨a, ha, hrequire⟩ := Option.bind_eq_some_iff.mp hm'
      rw [ha] at hreflects
      have hopen := hreflects.1.requireShape ht (Nat.le_refl first)
      rw [hrequire] at hopen
      obtain ⟨hstored, hbounded⟩ := hopen.1.restrictFrom_stored (hlist m hm) ht
        (show first < max (reach us) (first + 1) by omega)
        (fun x hx => ((hopen.2 first x).mp hx).2 ⟨Nat.le_refl first, Nat.le_refl first⟩) hfirst
        hfits
      rw [Option.map_some]
      dsimp only
      rw [hstored]
      exact ⟨rfl, hbounded⟩

/-- Reading a reference, in machine numbers. -/
theorem Holds.convert_stored (h : l.Holds us) (hb : l.Bounded n) (ht : t.Settled) {p : Position}
    (hp : p.Valid) (hn : p.Within n) (hfits : Word.bits64.Fits (n + 1)) :
    (l.storedAs d).convert .bits64 t.stored p = .ok ((l.convert t p).map (·.storedAs d)) ∧
      ∀ m ∈ l.convert t p, m.Bounded (n + 1) ∧ m.SameCounts l := by
  have hsucc := hb.mono (Nat.le_succ n)
  have hmax : ∀ m ≤ n, ∀ k ∈ l.used.map (max · m), k ≤ n + 1 := by
    intro m hm k hk
    obtain ⟨j, hj, rfl⟩ := Option.mem_map.mp hk
    have := hb.used j hj
    omega
  cases p with
  | next =>
      rw [StoredLevel.convert, StoredLevel.refer, Level.convert, refer, storedAs]
      dsimp only
      cases hused : l.used with
      | none => exact ⟨rfl, by simp⟩
      | some k =>
          have hk := hb.used k hused
          obtain ⟨hstored, hbounded⟩ :=
            h.require_stored (d := d) hsucc ht (Nat.le_refl k) (by omega) hfits
          rw [storedAs, hused] at hstored
          dsimp only
          rw [hstored, Checked.ok_bind, Word.add_eq (hfits.mono (by omega))]
          refine ⟨rfl, ?_⟩
          rintro m ⟨⟩
          refine ⟨⟨hbounded.directives, hbounded.deliberate, ?_, hbounded.arguments⟩, rfl, rfl⟩
          rintro j ⟨⟩
          omega
  | single m =>
      have hm : 0 < m := hp
      obtain ⟨hstored, hbounded⟩ :=
        h.require_stored (d := d) hsucc ht (Nat.le_refl (m - 1))
          (by rw [Position.Within] at hn; omega) hfits
      rw [StoredLevel.convert, StoredLevel.refer, Checked.sub_eq hm, Checked.ok_bind, hstored]
      refine ⟨rfl, ?_⟩
      rintro m ⟨⟩
      exact ⟨⟨hbounded.directives, hbounded.deliberate, hmax _ hn, hbounded.arguments⟩, rfl, rfl⟩
  | range m k =>
      obtain ⟨hm, hmk⟩ := hp
      obtain ⟨hstored, hbounded⟩ := h.require_stored (d := d) hsucc ht
        (show m - 1 ≤ k - 1 by omega) (by rw [Position.Within] at hn; omega) hfits
      rw [StoredLevel.convert, Checked.sub_eq hm, Checked.ok_bind, Checked.sub_eq (by omega),
        Checked.ok_bind, hstored]
      refine ⟨rfl, ?_⟩
      rintro m ⟨⟩
      exact ⟨⟨hbounded.directives, hbounded.deliberate, hmax _ hn, hbounded.arguments⟩, rfl, rfl⟩
  | toLast m =>
      obtain ⟨m, rfl⟩ := Nat.exists_eq_succ_of_ne_zero (Nat.ne_of_gt hp)
      have hm : m < n := hn
      obtain ⟨hstored, hbounded⟩ :=
        h.require_stored (d := d) hb ht (Nat.le_refl m) hm (hfits.mono (Nat.le_succ n))
      obtain ⟨hrest, hlist⟩ := h.restrictFrom_stored (d := d) hb ht hm hfits
      rw [StoredLevel.convert, Checked.sub_eq (Nat.succ_pos m), Checked.ok_bind,
        Nat.succ_sub_one, hstored, Checked.ok_bind, hrest]
      refine ⟨rfl, ?_⟩
      rintro l' ⟨⟩
      refine ⟨⟨hsucc.directives, hsucc.deliberate, by simp, fun a ha => ?_⟩, rfl, rfl⟩
      exact (hlist a ha).mono (Nat.le_succ n)

/-- The references that there are, as positions. -/
def references (qs : List (Option Reference × Kinds)) : List (Position × Kinds) :=
  qs.flatMap fun q => (q.1.map fun r => (r.position, q.2)).toList

theorem convert_reference (l : StoredLevel) (s : StoredShape) (r : Reference) :
    l.convert .bits64 s r.position = l.refer .bits64 s r := by
  cases r <;> rfl

/-- Reading what a directive mentions before the arguments that it formats. -/
theorem Holds.referAll_stored (h : l.Holds us) (hb : l.Bounded n)
    (qs : List (Option Reference × Kinds)) (hk : ∀ q ∈ references qs, q.2 ∈ Kinds.conversions)
    (hp : ∀ q ∈ references qs, q.1.Valid ∧ q.1.Within n)
    (hfits : Word.bits64.Fits (n + (references qs).length)) :
    StoredLevel.referAll .bits64 (qs.map fun q => (q.1, (Shape.plain q.2).stored)) (l.storedAs d) =
        .ok ((l.converts (references qs)).map (·.storedAs d)) ∧
      ∀ m ∈ l.converts (references qs), m.Bounded (n + (references qs).length) ∧
        m.SameCounts l := by
  induction qs generalizing l us n with
  | nil =>
      refine ⟨rfl, ?_⟩
      rintro m ⟨⟩
      exact ⟨hb, rfl, rfl⟩
  | cons q qs ih =>
      obtain ⟨r, k⟩ := q
      cases r with
      | none => exact ih h hb hk hp hfits
      | some r =>
          have hcons : references ((some r, k) :: qs) = (r.position, k) :: references qs := rfl
          rw [hcons] at hk hp hfits ⊢
          obtain ⟨hkr, hk⟩ := List.forall_mem_cons.mp hk
          obtain ⟨⟨hvalid, hwithin⟩, hp⟩ := List.forall_mem_cons.mp hp
          rw [List.length_cons, Nat.add_comm _ 1, ← Nat.add_assoc] at hfits ⊢
          obtain ⟨hstored, hnext⟩ := h.convert_stored (d := d) hb (.plain hkr) hvalid hwithin
            (hfits.mono (Nat.le_add_right _ _))
          rw [List.map_cons, StoredLevel.referAll, StoredLevel.refer?, ← convert_reference, hstored,
            Checked.ok_bind, Level.converts, List.foldlM_cons]
          cases hm : l.convert (.plain k) r.position with
          | none => exact ⟨rfl, by simp⟩
          | some m =>
              obtain ⟨hbounded, hcounts⟩ := hnext m hm
              have hholds := h.convert (.plain hkr) (fun x => x.fits_plain k) hvalid hm
              obtain ⟨hstored, hrest⟩ := ih hholds hbounded hk
                (fun q hq => ⟨(hp q hq).1, (hp q hq).2.mono (Nat.le_succ n)⟩) hfits
              exact ⟨hstored, fun a ha => ⟨(hrest a ha).1, (hrest a ha).2.trans hcounts⟩⟩

/-- The references of a directive, beside what it formats. -/
def auxiliary (head : Head) : List (Option Reference × Kinds) :=
  [(head.width, .ofList [.integer]), (head.precision, .ofList [.integer]),
    (if head.groupSize then some .next else none, .ofList [.integer]),
    (if head.separator then some .next else none, .ofList [.char])]

theorem references_auxiliary (head : Head) : references (auxiliary head) = head.auxiliary := by
  obtain ⟨position, spaced, width, precision, size, separator⟩ := head
  cases width <;> cases precision <;> cases size <;> cases separator <;> rfl

/-- The numbers in the head of a directive are at most `n`. -/
def HeadWithin (n : ℕ) (head : Head) : Prop :=
  head.position.Within n ∧ ∀ q ∈ head.auxiliary, q.1.Within n

/-- Reading a directive, in machine numbers. -/
theorem Holds.add_stored (h : l.Holds us) (hb : l.Bounded n) (ht : t.Settled) {head : Head}
    (hv : head.Valid) (hw : HeadWithin n head)
    (hfits : Word.bits64.Fits (n + head.auxiliary.length + 1)) :
    (l.storedAs (l.directives + 1)).add .bits64 head t.stored =
        .ok ((l.add head t).map Level.stored) ∧
      ∀ m ∈ l.add head t, m.Bounded (n + head.auxiliary.length + 1) ∧
        m.directives = l.directives + 1 := by
  have hkinds : ∀ q ∈ head.auxiliary, q.2 ∈ Kinds.conversions :=
    fun q hq => Head.conversion_of_mem_auxiliary hq
  have haux := references_auxiliary head
  obtain ⟨hstored, hconverts⟩ := h.referAll_stored (d := l.directives + 1) hb (auxiliary head)
    (haux ▸ hkinds) (haux ▸ fun q hq => ⟨hv.2 q hq, hw.2 q hq⟩)
    (haux ▸ hfits.mono (Nat.le_succ _))
  rw [haux] at hstored hconverts
  have hmap : StoredLevel.auxiliary head =
      (auxiliary head).map fun q => (q.1, (Shape.plain q.2).stored) := rfl
  rw [StoredLevel.add, hmap, hstored, Checked.ok_bind, add_eq]
  cases ha : l.converts head.auxiliary with
  | none => exact ⟨rfl, by simp⟩
  | some a =>
      obtain ⟨hbounded, hcounts⟩ := hconverts a ha
      have hholds := h.converts hkinds hv.2 ha
      obtain ⟨hstored, hconvert⟩ := hholds.convert_stored (d := l.directives + 1) hbounded ht hv.1
        (hw.1.mono (Nat.le_add_right _ _)) hfits
      rw [Option.map_some, Option.bind_some]
      dsimp only
      rw [hstored, Checked.ok_bind]
      cases hm : a.convert t head.position with
      | none => exact ⟨rfl, by simp⟩
      | some m =>
          obtain ⟨hbounded, hsame⟩ := hconvert m hm
          obtain ⟨hdirectives, hdeliberate⟩ := hsame.trans hcounts
          have hd : m.directives + 1 ≤ n + head.auxiliary.length + 1 := by
            have := hb.directives
            omega
          have he : m.deliberate + 1 ≤ n + head.auxiliary.length + 1 := by
            have := hb.deliberate
            omega
          have hadd : Word.bits64.add (m.storedAs (l.directives + 1)).deliberate 1 =
              .ok (m.deliberate + 1) := Word.add_eq (hfits.mono he)
          rw [Option.bind_some, Option.map_some]
          dsimp only
          cases head.spaced with
          | true =>
              constructor
              · rw [if_pos rfl, ← hdirectives]
                rfl
              · rintro m' ⟨⟩
                exact ⟨⟨hd, hbounded.deliberate, hbounded.used, hbounded.arguments⟩,
                  congrArg (· + 1) hdirectives⟩
          | false =>
              constructor
              · rw [if_neg Bool.false_ne_true, hadd, ← hdirectives]
                rfl
              · rintro m' ⟨⟩
                exact ⟨⟨hd, he, hbounded.used, hbounded.arguments⟩, congrArg (· + 1) hdirectives⟩

/-- The end of a level, in machine numbers. -/
theorem Bounded.finish_stored (hb : l.Bounded n) (hfits : Word.bits64.Fits n) :
    (l.storedAs d).finish .bits64 = .ok (match l.finish with
      | .error e => .error e
      | .ok f => .ok ⟨d, f.deliberate, some f.arguments.stored, l.used⟩) ∧
      ∀ f, l.finish = .ok f → f.arguments.Storable .bits64 := by
  rw [StoredLevel.finish, storedAs, Level.finish]
  dsimp only
  cases ha : l.arguments with
  | none =>
      cases l.used <;> exact ⟨rfl, by simp⟩
  | some a =>
      have hstorable := (hb.arguments a ha).storable
      cases hused : l.used with
      | none =>
          refine ⟨rfl, ?_⟩
          rintro f ⟨⟩
          exact hstorable
      | some k =>
          have hk := hfits.mono (hb.used k hused)
          have hend := hstorable.endAt hk
          simp only [Option.map_some, Option.bind_some]
          rw [ArgList.endAt_stored hstorable hk, Checked.ok_bind]
          cases hm : a.endAt k with
          | none => exact ⟨rfl, by simp⟩
          | some m =>
              refine ⟨rfl, ?_⟩
              rintro f ⟨⟩
              exact hend m hm

end Level

end CatalogLint
