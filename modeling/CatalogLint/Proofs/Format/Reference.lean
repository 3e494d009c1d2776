import CatalogLint.Format.Directive
import CatalogLint.Proofs.ArgList.Acceptance

/-!
# What references mean

A level of a format string mentions arguments, in the order in which they are written: those of a
directive for its width, its precision, its group size and its separator come before the ones that
it formats. A mention without a number is of the argument after the largest number mentioned
before. Once numbered, the mentions are a conjunction: which values satisfy them does not depend
on their order, and nothing here speaks of argument lists.
-/
namespace CatalogLint

/-- A reference to arguments, and the values that it takes. -/
structure Mention where
  position : Position
  admits : Value → Prop

/-- A reference to the arguments numbered `first` to `last`, or to all from `first` on. -/
structure Use where
  first : ℕ
  last : Option ℕ
  admits : Value → Prop

def Position.numbers (n : ℕ) : Position → ℕ × Option ℕ
  | .next => (n + 1, some (n + 1))
  | .single m => (m, some m)
  | .range m k => (m, some k)
  | .toLast m => (m, none)

/-- Numbers are counted from one, and a range is not empty. -/
def Position.Valid : Position → Prop
  | .next => True
  | .single m | .toLast m => 0 < m
  | .range m k => 0 < m ∧ m ≤ k

def Mention.use (n : ℕ) (m : Mention) : Use :=
  ⟨(m.position.numbers n).1, (m.position.numbers n).2, m.admits⟩

namespace Use

def Covers (u : Use) (n : ℕ) : Prop :=
  u.first ≤ n ∧ ∀ m ∈ u.last, n ≤ m

/-- The largest number in the reference. -/
def largest (u : Use) : ℕ :=
  u.last.getD u.first

def isBounded (u : Use) : Bool :=
  u.last.isSome

/-- The largest number in all references. -/
def reach : List Use → ℕ
  | [] => 0
  | u :: us => max u.largest (reach us)

/-- Numbers the mentions, `n` being the largest number so far. -/
def number : ℕ → List Mention → List Use
  | _, [] => []
  | n, m :: ms => m.use n :: number (max n (m.use n).largest) ms

/-- As many arguments as the largest number, or more if some reference is to all that follow; and
each is as every reference to it wants it. -/
def Satisfied (us : List Use) (xs : List Value) : Prop :=
  (if us.all isBounded then xs.length = reach us else reach us ≤ xs.length) ∧
    ∀ u ∈ us, ∀ i x, xs[i]? = some x → u.Covers (i + 1) → u.admits x

theorem reach_append (us vs : List Use) : reach (us ++ vs) = max (reach us) (reach vs) := by
  induction us with
  | nil => simp [reach]
  | cons u us ih => rw [List.cons_append, reach, ih, reach, Nat.max_assoc]

theorem largest_le_reach {u : Use} {us : List Use} (h : u ∈ us) : u.largest ≤ reach us := by
  induction us with
  | nil => cases h
  | cons v us ih =>
      rw [reach]
      rcases List.mem_cons.mp h with rfl | h
      · exact Nat.le_max_left _ _
      · exact (ih h).trans (Nat.le_max_right _ _)

theorem number_append (n : ℕ) (ms ms' : List Mention) :
    number n (ms ++ ms') = number n ms ++ number (max n (reach (number n ms))) ms' := by
  induction ms generalizing n with
  | nil => simp [number, reach]
  | cons m ms ih => simp only [List.cons_append, number, reach, ih, Nat.max_assoc]

/-- A reference covers its own largest number, if it covers anything. -/
theorem covers_first {n : ℕ} {m : Mention} (h : m.position.Valid) :
    0 < (m.use n).first ∧ (m.use n).Covers (m.use n).first ∧
      (m.use n).first ≤ (m.use n).largest := by
  unfold Mention.use Covers largest
  cases hp : m.position with
  | next => simp [Position.numbers]
  | single k =>
      rw [hp, Position.Valid] at h
      simpa [Position.numbers] using h
  | range k l =>
      rw [hp, Position.Valid] at h
      simpa [Position.numbers] using h
  | toLast k =>
      rw [hp, Position.Valid] at h
      simpa [Position.numbers] using h

/-- What no value satisfies, no arguments do. -/
theorem not_satisfied {us : List Use} {n : ℕ} {m : Mention} (hm : m.position.Valid)
    (hu : m.use n ∈ us) (h : ∀ x, ¬ m.admits x) (xs : List Value) : ¬ Satisfied us xs := by
  rintro ⟨hlen, hadmits⟩
  obtain ⟨hpos, hcovers, hle⟩ := covers_first (n := n) hm
  have hreach := largest_le_reach hu
  have hlt : (m.use n).first - 1 < xs.length := by
    split_ifs at hlen <;> omega
  refine h xs[(m.use n).first - 1] (hadmits _ hu _ _ (List.getElem?_eq_getElem hlt) ?_)
  rwa [Nat.sub_add_cancel hpos]

end Use

/-- No argument without a number is mentioned once all that follow have been. -/
def Orderly : List Mention → Prop
  | [] => True
  | m :: ms => ((∃ k, m.position = .toLast k) → ∀ m' ∈ ms, m'.position ≠ .next) ∧ Orderly ms

theorem Orderly.append {ms ms' : List Mention} (h : Orderly (ms ++ ms')) :
    Orderly ms' ∧ ((∀ m ∈ ms, ∀ k, m.position ≠ .toLast k) ∨ ∀ m ∈ ms', m.position ≠ .next) := by
  induction ms with
  | nil => exact ⟨h, .inl nofun⟩
  | cons m ms ih =>
      obtain ⟨hm, h⟩ := h
      obtain ⟨horderly, hms⟩ := ih h
      refine ⟨horderly, ?_⟩
      by_cases hlast : ∃ k, m.position = .toLast k
      · exact .inr fun m' hm' => hm hlast m' (List.mem_append_right ms hm')
      · rcases hms with hms | hms
        · left
          intro m' hm' k hk
          rcases List.mem_cons.mp hm' with rfl | hm'
          · exact hlast ⟨k, hk⟩
          · exact hms m' hm' k hk
        · exact .inr hms

theorem Mention.isBounded_use {m : Mention} (h : ∀ k, m.position ≠ .toLast k) (n : ℕ) :
    (m.use n).isBounded = true := by
  unfold use Use.isBounded
  cases hp : m.position with
  | toLast k => exact absurd hp (h k)
  | next => rfl
  | single k => rfl
  | range k l => rfl

theorem Use.all_isBounded_number {ms : List Mention}
    (h : ∀ m ∈ ms, ∀ k, m.position ≠ .toLast k) (n : ℕ) :
    (number n ms).all isBounded = true := by
  induction ms generalizing n with
  | nil => rfl
  | cons m ms ih =>
      rw [number, List.all_cons, Bool.and_eq_true]
      exact ⟨m.isBounded_use (h m List.mem_cons_self) n,
        ih (fun m' hm' => h m' (List.mem_cons_of_mem m hm')) _⟩

def Reference.position : Reference → Position
  | .next => .next
  | .numbered m => .single m

def Mention.ofKinds (p : Position) (k : Kinds) : Mention :=
  ⟨p, fun x => x.category ∈ k⟩

namespace Head

/-- What a directive mentions besides the arguments that it formats, in the order of writing. -/
def auxiliary (h : Head) : List (Position × Kinds) :=
  (h.width.map fun r => (r.position, .ofList [.integer])).toList ++
    (h.precision.map fun r => (r.position, .ofList [.integer])).toList ++
    (if h.groupSize then [(.next, .ofList [.integer])] else []) ++
    (if h.separator then [(.next, .ofList [.char])] else [])

/-- The mentions of a directive; the arguments that it formats come last. -/
def mentions (h : Head) (admits : Value → Prop) : List Mention :=
  h.auxiliary.map (fun q => .ofKinds q.1 q.2) ++ [⟨h.position, admits⟩]

def Valid (h : Head) : Prop :=
  h.position.Valid ∧ ∀ q ∈ h.auxiliary, q.1.Valid

theorem mem_auxiliary {h : Head} {q : Position × Kinds} (hq : q ∈ h.auxiliary) :
    (q.2 = .ofList [.integer] ∨ q.2 = .ofList [.char]) ∧
      ((∃ r, (h.width = some r ∨ h.precision = some r) ∧ q.1 = r.position) ∨ q.1 = .next) := by
  simp only [auxiliary, List.mem_append, Option.mem_toList, Option.map_eq_some_iff] at hq
  rcases hq with ((⟨r, hr, rfl⟩ | ⟨r, hr, rfl⟩) | hq) | hq
  · exact ⟨.inl rfl, .inl ⟨r, .inl hr, rfl⟩⟩
  · exact ⟨.inl rfl, .inl ⟨r, .inr hr, rfl⟩⟩
  · cases hg : h.groupSize <;> rw [hg] at hq
    · cases hq
    · obtain rfl := List.mem_singleton.mp hq
      exact ⟨.inl rfl, .inr rfl⟩
  · cases hs : h.separator <;> rw [hs] at hq
    · cases hq
    · obtain rfl := List.mem_singleton.mp hq
      exact ⟨.inr rfl, .inr rfl⟩

theorem valid_of_references {h : Head} (hp : h.position.Valid)
    (hwidth : ∀ r, h.width = some r → r.position.Valid)
    (hprecision : ∀ r, h.precision = some r → r.position.Valid) : h.Valid := by
  refine ⟨hp, fun q hq => ?_⟩
  obtain ⟨-, ⟨r, hr, hpos⟩ | hpos⟩ := mem_auxiliary hq
  · rw [hpos]
    exact hr.elim (hwidth r) (hprecision r)
  · rw [hpos]
    trivial

theorem auxiliary_ne_toLast (h : Head) {q : Position × Kinds} (hq : q ∈ h.auxiliary) (k : ℕ) :
    q.1 ≠ .toLast k := by
  obtain ⟨-, ⟨r, -, hpos⟩ | hpos⟩ := mem_auxiliary hq
  · rw [hpos]
    cases r <;> nofun
  · rw [hpos]
    nofun

end Head

/-- The elements of the value satisfy the references: one element of an array or a range, the key
and the value of an associative array. -/
def Value.ElementsSatisfy (us : List Use) (x : Value) : Prop :=
  ∃ es, x.elements? = some es ∧ Use.Satisfied us es

end CatalogLint
