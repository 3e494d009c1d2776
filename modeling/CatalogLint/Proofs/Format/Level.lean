import CatalogLint.Format.Meaning
import CatalogLint.Proofs.ArgList.Open
import CatalogLint.Proofs.Format.Reference

/-!
# Reading a level

A level that has been read up to some place reflects the references read so far (`Level.Holds`):
its list admits at each place what all references to that argument admit, and if there is no list
any more, some argument that is required cannot be supplied. Each reference keeps this
(`Level.Holds.convert`), and so does each directive (`Level.Holds.add`). At the end of the level
the list accepts exactly the arguments that satisfy the references (`Level.Holds.finish`).
-/
namespace CatalogLint
open Use

theorem Kinds.conversion_of_specifierKinds {s : Char} {k : Kinds}
    (h : specifierKinds s = some k) : k ∈ conversions := by
  unfold specifierKinds at h
  split at h
  all_goals first | (cases h; decide) | cases h

theorem Head.conversion_of_mem_auxiliary {h : Head} {q : Position × Kinds}
    (hq : q ∈ h.auxiliary) : q.2 ∈ Kinds.conversions := by
  rcases (mem_auxiliary hq).1 with hq | hq <;> rw [hq] <;> decide

/-- The list admits what the references do; no list is left only when they contradict one another
at an argument that they require. -/
def Reflects (us : List Use) : Option ArgList → Prop
  | some l => l.Open (reach us) ∧
      ∀ j x, l.Admits j x ↔ ∀ u ∈ us, u.Covers (j + 1) → u.admits x
  | none => ∃ j < reach us, ∀ x, ∃ u ∈ us, u.Covers (j + 1) ∧ ¬ u.admits x

theorem reflects_unconstrained : Reflects [] (some .unconstrained) := by
  refine ⟨ArgList.open_unconstrained, fun j x => ?_⟩
  rw [ArgList.admits_of_cellAt (ArgList.cellAt_unconstrained j)]
  simp [x.fits_any]

variable {us : List Use} {o : Option ArgList} {t : Shape} {admits : Value → Prop}

/-- A further reference, once the list is confined to it. -/
theorem Reflects.confined {l : ArgList} {u : Use} {p : ℕ → Prop} (h : Reflects us (some l))
    (hc : ArgList.Confined (reach (us ++ [u])) l p t o) (hu : ∀ x, x.Fits t ↔ u.admits x)
    (hp : ∀ j, p j ↔ u.Covers (j + 1)) : Reflects (us ++ [u]) o := by
  cases o with
  | some m =>
      obtain ⟨hopen, hadmits⟩ := hc
      refine ⟨hopen, fun j x => ?_⟩
      rw [hadmits, h.2, hp, hu]
      simp [or_imp, forall_and]
  | none =>
      obtain ⟨j, hj, hpj, hnone⟩ := hc
      refine ⟨j, hj, fun x => ?_⟩
      by_cases hx : u.admits x
      · have := hnone x
        rw [h.2, hu] at this
        by_contra hcontra
        push Not at hcontra
        exact this (fun v hv hcov => hcontra v (List.mem_append_left _ hv) hcov) hx
      · exact ⟨u, by simp, (hp j).mp hpj, hx⟩

theorem Reflects.none_append {u : Use} (h : Reflects us none) : Reflects (us ++ [u]) none := by
  obtain ⟨j, hj, hnone⟩ := h
  refine ⟨j, ?_, fun x => ?_⟩
  · rw [reach_append]
    omega
  · obtain ⟨v, hv, hx⟩ := hnone x
    exact ⟨v, List.mem_append_left _ hv, hx⟩

theorem Reflects.requireShape (h : Reflects us o) (ht : t.Settled)
    (hadmits : ∀ x, x.Fits t ↔ admits x) {first last : ℕ} (hle : first ≤ last) :
    Reflects (us ++ [⟨first + 1, some (last + 1), admits⟩])
      (o.bind (·.requireShape first last t)) := by
  cases o with
  | none => exact h.none_append
  | some l =>
      refine h.confined (t := t) (p := fun k => first ≤ k ∧ k ≤ last) ?_ hadmits fun j => ?_
      · rw [reach_append]
        exact h.1.requireShape ht hle
      · simp [Covers]

theorem Reflects.restrictFrom (h : Reflects us o) (ht : t.Settled)
    (hadmits : ∀ x, x.Fits t ↔ admits x) (m : ℕ) :
    Reflects (us ++ [⟨m + 1, none, admits⟩])
      ((o.bind (·.requireShape m m t)).bind (·.restrictFrom (m + 1) t)) := by
  cases o with
  | none => exact h.none_append
  | some l =>
      have hone := h.1.requireShape ht (Nat.le_refl m)
      have hreach : reach (us ++ [⟨m + 1, none, admits⟩]) = max (reach us) (m + 1) := by
        simp [reach_append, reach, largest]
      simp only [Option.bind_some]
      cases hm : l.requireShape m m t with
      | none =>
          rw [hm] at hone
          obtain ⟨j, hj, hjm, hnone⟩ := hone
          refine h.confined (t := t) (p := fun k => m ≤ k) ?_ hadmits fun k => by simp [Covers]
          rw [hreach]
          exact ⟨j, hj, hjm.1, hnone⟩
      | some a =>
          rw [hm] at hone
          have hrest := hone.1.restrictFrom ht (show m < max (reach us) (m + 1) by omega)
            fun x hx => ((hone.2 m x).mp hx).2 ⟨Nat.le_refl m, Nat.le_refl m⟩
          have hboth := hone.trans hrest
          rw [← hreach] at hboth
          refine h.confined hboth hadmits fun k => ?_
          simp only [Covers, Option.not_mem_none, false_imp_iff, implies_true, and_true]
          omega

namespace Level

/-- What has been read of the level says what the references do, and counts their arguments. -/
structure Holds (l : Level) (us : List Use) : Prop where
  arguments : Reflects us l.arguments
  used : l.used = if us.all isBounded then some (reach us) else none

theorem holds_outset : outset.Holds [] :=
  ⟨reflects_unconstrained, rfl⟩

variable {l l' : Level}

/-- How the count of arguments goes on after a reference. -/
theorem used_append (us : List Use) (u : Use) :
    (if (us ++ [u]).all isBounded then some (reach (us ++ [u])) else none) =
      if u.isBounded then
        (if us.all isBounded then some (reach us) else none).map (max · u.largest)
      else none := by
  rw [List.all_append, reach_append]
  cases hu : u.isBounded <;> cases us.all isBounded <;> simp [reach, hu]

/-- Reading a reference. -/
theorem Holds.convert (h : l.Holds us) (ht : t.Settled) (hadmits : ∀ x, x.Fits t ↔ admits x)
    {p : Position} (hp : p.Valid) (hl : l.convert t p = some l') :
    l'.Holds (us ++ [Mention.use (reach us) ⟨p, admits⟩]) := by
  obtain ⟨arguments, used⟩ := h
  cases p with
  | next =>
      rw [Level.convert, refer, Option.map_eq_some_iff] at hl
      obtain ⟨n, hn, rfl⟩ := hl
      rw [used] at hn
      split_ifs at hn with hall
      cases hn
      refine ⟨arguments.requireShape ht hadmits (Nat.le_refl _), ?_⟩
      rw [used_append, if_pos hall]
      simp [Mention.use, Position.numbers, isBounded, largest]
  | single m =>
      rw [Level.convert, refer] at hl
      cases hl
      obtain ⟨m, rfl⟩ := Nat.exists_eq_succ_of_ne_zero (Nat.ne_of_gt hp)
      refine ⟨arguments.requireShape ht hadmits (Nat.le_refl _), ?_⟩
      rw [used_append, ← used]
      rfl
  | range m n =>
      rw [Level.convert] at hl
      cases hl
      obtain ⟨hm, hmn⟩ := hp
      obtain ⟨m, rfl⟩ := Nat.exists_eq_succ_of_ne_zero (Nat.ne_of_gt hm)
      obtain ⟨n, rfl⟩ := Nat.exists_eq_succ_of_ne_zero (show n ≠ 0 by omega)
      refine ⟨arguments.requireShape ht hadmits (Nat.le_of_succ_le_succ hmn), ?_⟩
      rw [used_append, ← used]
      rfl
  | toLast m =>
      rw [Level.convert] at hl
      cases hl
      obtain ⟨m, rfl⟩ := Nat.exists_eq_succ_of_ne_zero (Nat.ne_of_gt hp)
      refine ⟨arguments.restrictFrom ht hadmits m, ?_⟩
      rw [used_append]
      rfl

/-- An argument is refused only when it is to follow the last one. -/
theorem Holds.convert_ne_none (h : l.Holds us) (t : Shape) {p : Position}
    (hp : us.all isBounded = true ∨ p ≠ .next) : l.convert t p ≠ none := by
  cases p with
  | next =>
      have hall : us.all isBounded = true := by simpa using hp
      rw [Level.convert, refer, h.used, if_pos hall]
      simp
  | single m => simp [Level.convert, refer]
  | range m n => simp [Level.convert]
  | toLast m => simp [Level.convert]

/-- Reading what a directive mentions before the arguments that it formats. -/
def converts (l : Level) (qs : List (Position × Kinds)) : Option Level :=
  qs.foldlM (fun l q => l.convert (.plain q.2) q.1) l

theorem convert_position (l : Level) (t : Shape) (r : Reference) :
    l.convert t r.position = l.refer t r := by
  cases r <;> rfl

theorem converts_append (l : Level) (qs rs : List (Position × Kinds)) :
    l.converts (qs ++ rs) = (l.converts qs).bind (·.converts rs) := by
  rw [converts, List.foldlM_append]
  rfl

theorem refer?_eq (l : Level) (k : Kinds) (r : Option Reference) :
    l.refer? (.plain k) r = l.converts (r.map fun r => (r.position, k)).toList := by
  cases r with
  | none => rfl
  | some r => simp [refer?, converts, convert_position]

theorem add_eq (l : Level) (h : Head) (t : Shape) :
    l.add h t = ((l.converts h.auxiliary).bind (·.convert t h.position)).bind fun l =>
      some { l with
        directives := l.directives + 1
        deliberate := if h.spaced then l.deliberate else l.deliberate + 1 } := by
  have hnext : ∀ (b : Bool) (k : Kinds), (if b then [(Position.next, k)] else []) =
      ((if b then some Reference.next else none).map fun r => (r.position, k)).toList := by
    intro b k
    cases b <;> rfl
  rw [Head.auxiliary, hnext, hnext]
  simp only [converts_append, ← refer?_eq, Option.bind_assoc]
  rfl

theorem Holds.converts (h : l.Holds us) {qs : List (Position × Kinds)}
    (hk : ∀ q ∈ qs, q.2 ∈ Kinds.conversions) (hp : ∀ q ∈ qs, q.1.Valid)
    (hl : l.converts qs = some l') :
    l'.Holds (us ++ number (reach us) (qs.map fun q => .ofKinds q.1 q.2)) := by
  induction qs generalizing l us with
  | nil =>
      cases hl
      simpa [number] using h
  | cons q qs ih =>
      rw [Level.converts, List.foldlM_cons] at hl
      obtain ⟨a, ha, hl⟩ := Option.bind_eq_some_iff.mp hl
      have hq := h.convert (.plain (hk q List.mem_cons_self)) (fun x => x.fits_plain q.2)
        (hp q List.mem_cons_self) ha
      have := ih hq (fun r hr => hk r (List.mem_cons_of_mem q hr))
        (fun r hr => hp r (List.mem_cons_of_mem q hr)) hl
      simpa [number, reach_append, reach, Mention.ofKinds] using this

/-- Reading a directive, for values of a settled shape. -/
theorem Holds.add (h : l.Holds us) (ht : t.Settled) (hadmits : ∀ x, x.Fits t ↔ admits x)
    {head : Head} (hv : head.Valid) (hl : l.add head t = some l') :
    l'.Holds (us ++ number (reach us) (head.mentions admits)) := by
  rw [add_eq] at hl
  obtain ⟨b, hb, hl⟩ := Option.bind_eq_some_iff.mp hl
  cases hl
  obtain ⟨a, ha, hb⟩ := Option.bind_eq_some_iff.mp hb
  have hkinds : ∀ q ∈ head.auxiliary, q.2 ∈ Kinds.conversions :=
    fun q hq => Head.conversion_of_mem_auxiliary hq
  have haux := h.converts hkinds hv.2 ha
  obtain ⟨arguments, used⟩ := haux.convert ht hadmits hv.1 hb
  rw [reach_append] at arguments used
  rw [Head.mentions, number_append, ← List.append_assoc]
  exact ⟨arguments, used⟩

theorem Holds.converts_ne_none (h : l.Holds us) {qs : List (Position × Kinds)}
    (hk : ∀ q ∈ qs, q.2 ∈ Kinds.conversions) (hv : ∀ q ∈ qs, q.1.Valid)
    (hlast : ∀ q ∈ qs, ∀ k, q.1 ≠ .toLast k)
    (hp : us.all isBounded = true ∨ ∀ q ∈ qs, q.1 ≠ .next) : l.converts qs ≠ none := by
  induction qs generalizing l us with
  | nil => simp [Level.converts]
  | cons q qs ih =>
      have hq : us.all isBounded = true ∨ q.1 ≠ .next := by
        exact hp.imp_right fun hp => hp q List.mem_cons_self
      obtain ⟨a, ha⟩ := Option.ne_none_iff_exists'.mp (h.convert_ne_none (.plain q.2) hq)
      have hstep := h.convert (.plain (hk q List.mem_cons_self)) (fun x => x.fits_plain q.2)
        (hv q List.mem_cons_self) ha
      rw [Level.converts, List.foldlM_cons, ha]
      refine ih hstep (fun r hr => hk r (List.mem_cons_of_mem q hr))
        (fun r hr => hv r (List.mem_cons_of_mem q hr))
        (fun r hr => hlast r (List.mem_cons_of_mem q hr)) ?_
      rcases hp with hall | hp
      · left
        rw [List.all_append, hall, List.all_cons, List.all_nil, Bool.true_and, Bool.and_true]
        exact Mention.isBounded_use (hlast q List.mem_cons_self) _
      · exact .inr fun r hr => hp r (List.mem_cons_of_mem q hr)

/-- A directive is refused only when some argument of it is to follow the last one. -/
theorem Holds.add_ne_none (h : l.Holds us) (t : Shape) {head : Head} (hv : head.Valid)
    (hp : us.all isBounded = true ∨ ∀ m ∈ head.mentions admits, m.position ≠ .next) :
    l.add head t ≠ none := by
  have hkinds : ∀ q ∈ head.auxiliary, q.2 ∈ Kinds.conversions :=
    fun q hq => Head.conversion_of_mem_auxiliary hq
  have haux : us.all isBounded = true ∨ ∀ q ∈ head.auxiliary, q.1 ≠ .next := by
    refine hp.imp_right fun hp q hq => ?_
    exact hp (.ofKinds q.1 q.2) (List.mem_append_left _ (List.mem_map.mpr ⟨q, hq, rfl⟩))
  obtain ⟨a, ha⟩ := Option.ne_none_iff_exists'.mp
    (h.converts_ne_none hkinds hv.2 (fun q hq => head.auxiliary_ne_toLast hq) haux)
  have hstep := h.converts hkinds hv.2 ha
  have hlast : (us ++ number (reach us) (head.auxiliary.map fun q =>
      .ofKinds q.1 q.2)).all isBounded = true ∨ head.position ≠ .next := by
    rcases hp with hall | hp
    · left
      rw [List.all_append, hall, Bool.true_and]
      apply all_isBounded_number
      intro m hm
      obtain ⟨q, hq, rfl⟩ := List.mem_map.mp hm
      exact head.auxiliary_ne_toLast hq
    · right
      exact hp ⟨head.position, admits⟩ (by simp [Head.mentions])
  obtain ⟨b, hb⟩ := Option.ne_none_iff_exists'.mp (hstep.convert_ne_none t hlast)
  rw [add_eq, ha]
  simp [hb]

end Level

/-- A finished list says what the references do. -/
structure ArgList.Built (us : List Use) (l : ArgList) : Prop where
  requires : l.Requires (reach us)
  settled : l.Settled
  accepts : ∀ xs, l.Accepts xs ↔ Satisfied us xs
  isFinite : l.isFinite = us.all isBounded
  extent : l.isFinite = true → Segment.extent l.initial = reach us

theorem ArgList.Built.exists_satisfied {l : ArgList} (h : l.Built us) : ∃ xs, Satisfied us xs := by
  obtain ⟨xs, hxs, -⟩ := h.requires.exists_accepts_length h.settled
  exact ⟨xs, (h.accepts xs).mp hxs⟩

theorem ArgList.built_finite {l : ArgList} {s : Segment} (hall : us.all isBounded = true)
    (h : Reflects us (some l)) (hs : Segment.Positive s) (hext : Segment.extent s = reach us)
    (hcells : ∀ k < reach us, (Segment.cells s)[k]? = l.cellAt k) :
    (finite s).Built us := by
  obtain ⟨hopen, hadmits⟩ := h
  have hcell : ∀ k c, (finite s).cellAt k = some c → k < reach us ∧ l.cellAt k = some c := by
    intro k c hc
    rw [cellAt_finite] at hc
    have hk := (List.getElem?_eq_some_iff.mp hc).1
    rw [Segment.length_cells, hext] at hk
    exact ⟨hk, (hcells k hk).symm.trans hc⟩
  have hrequires : (finite s).Requires (reach us) := by
    refine ⟨⟨hs, Segment.positive_nil⟩, fun k hk => ?_, fun k c hc => ?_⟩
    · obtain ⟨c, hc⟩ := hopen.endless k
      exact ⟨c, by rw [cellAt_finite, hcells k hk, hc]⟩
    · obtain ⟨-, hc⟩ := hcell k c hc
      exact hopen.requires.presence k c hc
  refine ⟨hrequires, fun k c hc => hopen.settled k c (hcell k c hc).2, fun xs => ?_, hall.symm,
    fun _ => hext⟩
  have hfinite : ∀ k x, (finite s).Admits k x ↔ k < reach us ∧ l.Admits k x := by
    intro k x
    constructor
    · rintro ⟨c, hc, hx⟩
      obtain ⟨hk, hc⟩ := hcell k c hc
      exact ⟨hk, c, hc, hx⟩
    · rintro ⟨hk, c, hc, hx⟩
      exact ⟨c, by rw [cellAt_finite, hcells k hk, hc], hx⟩
  rw [hrequires.accepts_iff, Satisfied, if_pos hall]
  constructor
  · rintro ⟨hle, hx⟩
    refine ⟨?_, fun u hu i x hi hcov => ?_⟩
    · by_contra hne
      have hlt : reach us < xs.length := by omega
      exact absurd ((hfinite _ _).mp (hx _ _ (List.getElem?_eq_getElem hlt))).1 (Nat.lt_irrefl _)
    · exact (hadmits i x).mp ((hfinite i x).mp (hx i x hi)).2 u hu hcov
  · rintro ⟨hlen, hx⟩
    refine ⟨hlen.ge, fun i x hi => (hfinite i x).mpr ⟨?_, (hadmits i x).mpr ?_⟩⟩
    · rw [← hlen]
      exact (List.getElem?_eq_some_iff.mp hi).1
    · exact fun u hu hcov => hx u hu i x hi hcov

theorem ArgList.built_open {l : ArgList} (hall : us.all isBounded = false)
    (h : Reflects us (some l)) : l.Built us := by
  obtain ⟨hopen, hadmits⟩ := h
  have hfin := hopen.isFinite_eq
  refine ⟨hopen.requires, hopen.settled, fun xs => ?_, hfin.trans hall.symm, fun h => ?_⟩
  · rw [hopen.requires.accepts_iff, Satisfied, hall]
    simp only [Bool.false_eq_true, if_false, hadmits]
    refine and_congr_right fun _ => ⟨fun h u hu i x hi => h i x hi u hu, fun h i x hi u hu => ?_⟩
    exact h u hu i x hi
  · rw [hfin] at h
    cases h

theorem Reflects.not_satisfied (h : Reflects us none) (xs : List Value) : ¬ Satisfied us xs := by
  rintro ⟨hlen, hx⟩
  obtain ⟨j, hj, hnone⟩ := h
  have hlt : j < xs.length := by
    split_ifs at hlen <;> omega
  obtain ⟨u, hu, hcov, hno⟩ := hnone xs[j]
  exact hno (hx u hu j _ (List.getElem?_eq_getElem hlt) hcov)

/-- What the level says when it has been read. -/
theorem Level.Holds.finish {l : Level} (h : l.Holds us) :
    match l.finish with
    | .ok f => f.arguments.Built us
    | .error e => e = .conflictingUses ∧ ∀ xs, ¬ Satisfied us xs := by
  obtain ⟨harguments, hused⟩ := h
  rw [Level.finish, hused]
  cases hall : us.all isBounded with
  | true =>
      rw [if_pos rfl]
      cases ha : l.arguments with
      | none =>
          rw [ha] at harguments
          exact ⟨rfl, harguments.not_satisfied⟩
      | some a =>
          rw [ha] at harguments
          obtain ⟨s, hend, hs, hext, hcells⟩ := harguments.1.endAt
          simp only [Option.bind_some, hend]
          exact ArgList.built_finite hall harguments hs hext hcells
  | false =>
      rw [if_neg Bool.false_ne_true]
      cases ha : l.arguments with
      | none =>
          rw [ha] at harguments
          exact ⟨rfl, harguments.not_satisfied⟩
      | some a =>
          rw [ha] at harguments
          exact ArgList.built_open hall harguments

/-- The shape of the values whose elements satisfy the references. -/
theorem ArgList.Built.compound {l : ArgList} (h : l.Built us) (hall : us.all isBounded = true)
    {k : Kinds} (hk : k.arity = some (reach us)) :
    (Shape.compound k l.initial l.repeated).Settled ∧
      ∀ x : Value, x.Fits (.compound k l.initial l.repeated) ↔ x.ElementsSatisfy us := by
  have hfin := h.isFinite.trans hall
  constructor
  · refine .compound hk h.requires ?_ h.settled
    by_contra hne
    obtain ⟨c, hc⟩ := Option.ne_none_iff_exists'.mp hne
    have hreach := reaches_of_cellAt hc hfin
    have := h.extent hfin
    simp only at hreach
    omega
  · intro x
    rw [x.fits_compound]
    constructor
    · rintro ⟨-, es, hes, hx⟩
      exact ⟨es, hes, (h.accepts es).mp hx⟩
    · rintro ⟨es, hes, hx⟩
      have hlen : es.length = reach us := by
        have := hx.1
        rwa [if_pos hall] at this
      exact ⟨x.category_mem_of_elements hes (hlen ▸ hk), es, hes, (h.accepts es).mpr hx⟩

namespace FormatSpec
variable {f : FormatSpec}

/-- A finite list with as many arguments as elements have describes elements. -/
theorem elementShape_of_arity (hfin : f.arguments.isFinite = true) {k : Kinds}
    (hk : k.arity = some (Segment.extent f.arguments.initial)) (n : ℕ) :
    f.elementShape n = .ok (.compound k f.arguments.initial f.arguments.repeated) := by
  rw [elementShape, hfin]
  rcases Kinds.arity_eq_some hk with ⟨rfl, hr⟩ | ⟨rfl, hr⟩
  · rw [hr]
    rfl
  · rw [hr]
    rfl

theorem elementShape_eq (h : f.arguments.Built us) (hall : us.all isBounded = true) {k : Kinds}
    (hk : k.arity = some (reach us)) (n : ℕ) :
    f.elementShape n = .ok (.compound k f.arguments.initial f.arguments.repeated) := by
  have hfin := h.isFinite.trans hall
  exact elementShape_of_arity hfin (by rw [h.extent hfin, hk]) n

theorem elementShape_ok (h : f.arguments.Built us) {n : ℕ} {t : Shape}
    (ht : f.elementShape n = .ok t) : us.all isBounded = true ∧ ∃ k : Kinds,
      k.arity = some (reach us) ∧
        t = .compound k f.arguments.initial f.arguments.repeated := by
  rw [elementShape] at ht
  split_ifs at ht with hfin
  have hfin : f.arguments.isFinite = true := by simpa using hfin
  refine ⟨h.isFinite.symm.trans hfin, ?_⟩
  rw [h.extent hfin] at ht
  split at ht
  · next hr =>
      cases ht
      exact ⟨.sequences, by rw [hr]; decide, rfl⟩
  · next hr =>
      cases ht
      exact ⟨.tables, by rw [hr]; decide, rfl⟩
  · cases ht

end FormatSpec

end CatalogLint
