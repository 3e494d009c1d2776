import Mathlib.Data.List.Perm.Basic
import CatalogLint.Proofs.Format.Reading

/-!
# Reordering directives

Once every reference has its number, the order of the directives of a level does not matter: the
references are a conjunction, and their list depends only on what they say together. A translation
may therefore put the directives of a message into any order and number what it refers to
(`FormatString.parse_reordered`). Group sizes and separating characters cannot be numbered.
-/
namespace CatalogLint
open Use

/-- What the specifier of a directive says of a value. -/
inductive Conversion where
  | value (kinds : Kinds)
  | compound (body : Format)

def Conversion.admits : Conversion → Value → Prop
  | .value k, x => x.category ∈ k
  | .compound body, x => x.ElementsSatisfy (number 0 body.mentions)

/-- The format of the elements, if there is one, is regular and takes one argument or two. -/
def Conversion.Regular : Conversion → Prop
  | .value _ => True
  | .compound body =>
      body.Regular ∧ body.uses.all isBounded = true ∧
        (Use.reach body.uses = 1 ∨ Use.reach body.uses = 2)

structure Directive where
  head : Head
  conversion : Conversion

/-- The directives of a level, without those inside compound ones. -/
def Format.directives : Format → List Directive
  | .done => []
  | .text _ rest => rest.directives
  | .value p s rest => ⟨p.head, .value s.kinds⟩ :: rest.directives
  | .compound p body _ rest => ⟨p.head, .compound body⟩ :: rest.directives

/-! ### Explicit numbers -/

/-- The position with its number, `n` being the largest number so far. -/
def Position.explicit (n : ℕ) : Position → Position
  | .next => .single (n + 1)
  | p => p

/-- The largest number once the position is counted too. -/
def Position.reach (n : ℕ) (p : Position) : ℕ :=
  max n ((p.numbers n).2.getD (p.numbers n).1)

def Reference.explicit (n : ℕ) : Reference → Reference
  | .next => .numbered (n + 1)
  | .numbered m => .numbered m

namespace Head

/-- The largest number after the width. -/
def reachWidth (n : ℕ) (h : Head) : ℕ :=
  (h.width.map (·.position.reach n)).getD n

/-- The largest number after the precision. -/
def reachPrecision (n : ℕ) (h : Head) : ℕ :=
  (h.precision.map (·.position.reach (h.reachWidth n))).getD (h.reachWidth n)

/-- The largest number after the directive. -/
def reach (n : ℕ) (h : Head) : ℕ :=
  h.position.reach (h.reachPrecision n)

/-- The width, the precision and the position with their numbers. -/
def explicit (n : ℕ) (h : Head) : Head :=
  { h with
    width := h.width.map (Reference.explicit n)
    precision := h.precision.map (Reference.explicit (h.reachWidth n))
    position := h.position.explicit (h.reachPrecision n) }

/-- The separator, if there is one, refers to no argument. -/
def Unseparated (h : Head) : Prop :=
  h.groupSize = false ∧ h.separator = false

end Head

namespace Directive

/-- The directives with their numbers. -/
def explicit : ℕ → List Directive → List Directive
  | _, [] => []
  | n, d :: ds => { d with head := d.head.explicit n } :: explicit (d.head.reach n) ds

def mentions (d : Directive) : List Mention :=
  d.head.mentions d.conversion.admits

end Directive

variable {n k : ℕ} {ms : List Mention} {admits : Value → Prop} {ds : List Directive}

theorem Position.explicit_ne_next (n : ℕ) (p : Position) : p.explicit n ≠ .next := by
  cases p <;> simp [explicit]

theorem Reference.position_explicit (n : ℕ) (r : Reference) :
    (r.explicit n).position = r.position.explicit n := by
  cases r <;> rfl

/-- The numbers of a reference that has them do not depend on what goes before it. -/
theorem Mention.use_explicit (n k : ℕ) (p : Position) (admits : Value → Prop) :
    Mention.use k ⟨p.explicit n, admits⟩ = Mention.use n ⟨p, admits⟩ := by
  cases p <;> rfl

theorem Mention.largest_use (n : ℕ) (p : Position) (admits : Value → Prop) :
    max n (Mention.use n ⟨p, admits⟩).largest = p.reach n :=
  rfl

theorem Head.number_explicit {h : Head} (hs : h.Unseparated) (admits : Value → Prop) (n k : ℕ) :
    number k ((h.explicit n).mentions admits) = number n (h.mentions admits) ∧
      max n (Use.reach (number n (h.mentions admits))) = h.reach n := by
  obtain ⟨position, spaced, width, precision, groupSize, separator⟩ := h
  obtain ⟨rfl, rfl⟩ := hs
  cases width <;> cases precision <;>
    simp [Head.mentions, auxiliary, explicit, number, Mention.ofKinds,
      Reference.position_explicit, Mention.use_explicit, Mention.largest_use, reachWidth,
      reachPrecision, Head.reach, Use.reach, ← Nat.max_assoc]

theorem Head.explicit_ne_next {h : Head} (hs : h.Unseparated) (n : ℕ) :
    ∀ m ∈ (h.explicit n).mentions admits, m.position ≠ .next := by
  obtain ⟨position, spaced, width, precision, groupSize, separator⟩ := h
  obtain ⟨rfl, rfl⟩ := hs
  cases width <;> cases precision <;>
    simp [Head.mentions, auxiliary, explicit, Mention.ofKinds, Reference.position_explicit,
      Position.explicit_ne_next]

namespace Directive

/-- Directives with their numbers say the same, whatever numbers go before them. -/
theorem number_explicit (hs : ∀ d ∈ ds, d.head.Unseparated) (n k : ℕ) :
    number k ((explicit n ds).flatMap mentions) = number n (ds.flatMap mentions) := by
  induction ds generalizing n k with
  | nil => rfl
  | cons d ds ih =>
      obtain ⟨hd, hds⟩ := List.forall_mem_cons.mp hs
      obtain ⟨hnumber, hreach⟩ := Head.number_explicit hd d.conversion.admits n k
      rw [explicit, List.flatMap_cons, List.flatMap_cons, number_append, number_append,
        ih hds (d.head.reach n)]
      simp only [mentions, hnumber, hreach]

theorem explicit_ne_next (hs : ∀ d ∈ ds, d.head.Unseparated) (n : ℕ) :
    ∀ m ∈ (explicit n ds).flatMap mentions, m.position ≠ .next := by
  induction ds generalizing n with
  | nil => nofun
  | cons d ds ih =>
      obtain ⟨hd, hds⟩ := List.forall_mem_cons.mp hs
      rw [explicit, List.flatMap_cons, List.forall_mem_append]
      exact ⟨Head.explicit_ne_next hd n, ih hds _⟩

theorem map_conversion_explicit (n : ℕ) (ds : List Directive) :
    (explicit n ds).map conversion = ds.map conversion := by
  induction ds generalizing n with
  | nil => rfl
  | cons d ds ih => rw [explicit, List.map_cons, List.map_cons, ih]

end Directive

/-! ### The order of references -/

variable {us vs : List Use}

theorem Use.reach_perm (h : us.Perm vs) : reach us = reach vs := by
  induction h with
  | nil => rfl
  | cons u _ ih => rw [reach, reach, ih]
  | swap u v us => simp only [reach, Nat.max_left_comm]
  | trans _ _ ih ih' => exact ih.trans ih'

theorem Use.satisfied_perm (h : us.Perm vs) (xs : List Value) :
    Satisfied us xs ↔ Satisfied vs xs := by
  simp only [Satisfied, h.all_eq, reach_perm h, h.mem_iff]

theorem Use.number_eq_map (h : ∀ m ∈ ms, m.position ≠ .next) (n : ℕ) :
    number n ms = ms.map (Mention.use 0) := by
  induction ms generalizing n with
  | nil => rfl
  | cons m ms ih =>
      obtain ⟨hm, hms⟩ := List.forall_mem_cons.mp h
      obtain ⟨p, admits⟩ := m
      have huse : Mention.use n ⟨p, admits⟩ = Mention.use 0 ⟨p, admits⟩ := by
        cases p with
        | next => exact absurd rfl hm
        | _ => rfl
      rw [number, List.map_cons, huse, ih hms]

theorem orderly_of_ne_next (h : ∀ m ∈ ms, m.position ≠ .next) : Orderly ms := by
  induction ms with
  | nil => trivial
  | cons m ms ih =>
      obtain ⟨-, hms⟩ := List.forall_mem_cons.mp h
      exact ⟨fun _ => hms, ih hms⟩

namespace Format

theorem mentions_eq (f : Format) : f.mentions = f.directives.flatMap Directive.mentions := by
  induction f with
  | done => rfl
  | text _ rest ih => exact ih
  | value p s rest ih => rw [mentions, ih]; rfl
  | compound p body _ rest _ ih => rw [mentions, ih]; rfl

theorem elementsRegular_iff (f : Format) :
    f.ElementsRegular ↔ ∀ c ∈ f.directives.map Directive.conversion, c.Regular := by
  induction f with
  | done => simp [ElementsRegular, directives]
  | text _ rest ih => exact ih
  | value p s rest ih => simpa [ElementsRegular, directives, Conversion.Regular] using ih
  | compound p body _ rest _ ih =>
      rw [ElementsRegular, ih]
      simp [directives, Conversion.Regular, Regular, and_assoc]

variable {f g : Format}

/-- Other directives, or the same in another order, with the numbers that the references have. -/
theorem uses_perm (hs : ∀ d ∈ f.directives, d.head.Unseparated)
    (h : g.directives.Perm (Directive.explicit 0 f.directives)) : g.uses.Perm f.uses := by
  have hmentions := h.flatMap_right Directive.mentions
  have hnext := Directive.explicit_ne_next hs 0
  have hnext' : ∀ m ∈ g.mentions, m.position ≠ .next := by
    rw [mentions_eq]
    exact fun m hm => hnext m (hmentions.mem_iff.mp hm)
  rw [uses, uses, f.mentions_eq, ← Directive.number_explicit hs 0 0, number_eq_map hnext,
    number_eq_map hnext', g.mentions_eq]
  exact hmentions.map _

theorem Regular.perm (hf : f.Regular) (hs : ∀ d ∈ f.directives, d.head.Unseparated)
    (h : g.directives.Perm (Directive.explicit 0 f.directives)) : g.Regular := by
  constructor
  · have hconversions := h.map Directive.conversion
    rw [Directive.map_conversion_explicit] at hconversions
    rw [elementsRegular_iff]
    exact fun c hc => f.elementsRegular_iff.mp hf.1 c (hconversions.mem_iff.mp hc)
  · apply orderly_of_ne_next
    rw [mentions_eq]
    have hmentions := h.flatMap_right Directive.mentions
    exact fun m hm => Directive.explicit_ne_next hs 0 m (hmentions.mem_iff.mp hm)

end Format

namespace FormatString
variable {s t : String} {v w : Wording}

/-- A string whose directives are those of another one, in any order and with explicit numbers,
has the same list; or both are refused as contradictory. -/
theorem parse_reordered (hs : s.toList = v.chars) (ht : t.toList = w.chars)
    (hv : v.format.Regular) (hseparators : ∀ d ∈ v.format.directives, d.head.Unseparated)
    (hw : w.format.directives.Perm (Directive.explicit 0 v.format.directives)) :
    (∃ f g, (parse s).result = .ok f ∧ (parse t).result = .ok g ∧ f.arguments = g.arguments ∧
      ∀ labels equality, check labels f g equality = none) ∨
    ((parse s).result = .error .conflictingUses ∧
      (parse t).result = .error .conflictingUses) := by
  -- both strings make the same references, so that they denote the same arguments
  have hdenotes : ∀ xs, w.format.Denotes xs ↔ v.format.Denotes xs :=
    satisfied_perm (Format.uses_perm hseparators hw)
  have hsv := result_cases (hs ▸ v.spells_ofText) hv
  have htw := result_cases (ht ▸ w.spells_ofText) (hv.perm hseparators hw)
  rcases hsv with ⟨f, a, hf, ha, hfa⟩ | ⟨hf, hnone⟩
  · rcases htw with ⟨g, b, hg, hb, hgb⟩ | ⟨-, hnone⟩
    · have hequal : f.arguments = g.arguments := by
        rw [hfa, hgb]
        apply ha.requires.normalize_eq hb.requires ha.settled hb.settled
        intro xs
        rw [ha.accepts, hb.accepts]
        exact (hdenotes xs).symm
      refine .inl ⟨f, g, hf, hg, hequal, fun labels equality => ?_⟩
      rw [check, ArgList.compare_eq_none]
      simp [strictTrailing, ArgList.agrees, hequal]
    · obtain ⟨xs, hxs⟩ := ha.exists_satisfied
      exact absurd ((hdenotes xs).mpr hxs) (hnone xs)
  · rcases htw with ⟨g, b, -, hb, -⟩ | ⟨hg, -⟩
    · obtain ⟨xs, hxs⟩ := hb.exists_satisfied
      exact absurd ((hdenotes xs).mp hxs) (hnone xs)
    · exact .inr ⟨hf, hg⟩

/-- A translation that turns the arguments around. -/
theorem parse_reordered_width :
    let d : Specifier := ⟨'d', .ofList [.bool, .integer, .char], rfl⟩
    let s : Specifier := ⟨'s', .any, rfl⟩
    let one : ArgNumber := ⟨⟨['1'], by simp, by simp⟩, by decide, by decide⟩
    let two : ArgNumber := ⟨⟨['2'], by simp, by simp⟩, by decide, by decide⟩
    let three : ArgNumber := ⟨⟨['3'], by simp, by simp⟩, by decide, by decide⟩
    let v : Wording := .value { Opening.bare with width := some .next } d
      (.text ':' (.text ' ' (.value .bare s .done)))
    let numbered : Opening :=
      { Opening.bare with position := .single two, width := some (.numbered one) }
    let w : Wording := .value { Opening.bare with position := .single three } s
      (.text ' ' (.text '(' (.value numbered d (.text ')' .done))))
    v.chars = "%*d: %s".toList ∧ w.chars = "%3$s (%2$*1$d)".toList ∧ v.format.Regular ∧
      w.format.directives.Perm (Directive.explicit 0 v.format.directives) ∧
      ((∃ f g, (parse "%*d: %s").result = .ok f ∧ (parse "%3$s (%2$*1$d)").result = .ok g ∧
          f.arguments = g.arguments ∧ ∀ labels equality, check labels f g equality = none) ∨
        ((parse "%*d: %s").result = .error .conflictingUses ∧
          (parse "%3$s (%2$*1$d)").result = .error .conflictingUses)) := by
  intro d s one two three v numbered w
  have hv : v.chars = "%*d: %s".toList := by decide
  have hw : w.chars = "%3$s (%2$*1$d)".toList := by decide
  have hregular : v.format.Regular := by
    exact ⟨trivial, nofun, nofun, nofun, trivial⟩
  have hseparators : ∀ d ∈ v.format.directives, d.head.Unseparated := by
    simp [v, Wording.format, Format.directives, Head.Unseparated, Opening.head_preamble,
      Opening.head, Opening.bare]
  have hperm : w.format.directives.Perm (Directive.explicit 0 v.format.directives) :=
    .swap _ _ _
  exact ⟨hv, hw, hregular, hperm, parse_reordered hv.symm hw.symm hregular hseparators hperm⟩

end FormatString

end CatalogLint
