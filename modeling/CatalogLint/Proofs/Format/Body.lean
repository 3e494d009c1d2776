import CatalogLint.Proofs.ArgList.Canonical
import CatalogLint.Proofs.ArgList.Surgery
import CatalogLint.Proofs.Format.Recovery

/-!
# Bodies of compound directives

The body of a compound directive is read as a format string of its own. What is read does not
depend on where it is written (`Format.Spells.result_eq`), so the body says inside the directive
what it says on its own; and since bringing lists into normal form keeps their numbers of
arguments, a format string makes a compound directive exactly if its list, in normal form, has one
argument or two (`FormatString.parse_compound`).
-/
namespace CatalogLint

namespace ArgList
variable {l : ArgList}

/-- A list and its normal form end at the same place, if at all. -/
theorem ends_normalize (h : l.Positive) (n : ℕ) :
    (l.normalize.isFinite = true ∧ Segment.extent l.normalize.initial ≤ n) ↔
      (l.isFinite = true ∧ Segment.extent l.initial ≤ n) := by
  rw [← cellAt_eq_none_iff (normal_normalize h).positive, ← cellAt_eq_none_iff h,
    cellAt_normalize h, Option.map_eq_none_iff]

theorem isFinite_normalize (h : l.Positive) : l.normalize.isFinite = l.isFinite := by
  have hends := ends_normalize h
    (max (Segment.extent l.normalize.initial) (Segment.extent l.initial))
  simp only [Nat.le_max_left, Nat.le_max_right, and_true] at hends
  rwa [Bool.eq_iff_iff]

theorem extent_normalize (h : l.Positive) (hfin : l.isFinite = true) :
    Segment.extent l.normalize.initial = Segment.extent l.initial := by
  have hends := ends_normalize h
  simp only [isFinite_normalize h, hfin, true_and] at hends
  exact Nat.le_antisymm ((hends _).mpr le_rfl) ((hends _).mp le_rfl)

end ArgList

/-- The shape of the elements is in normal form as soon as their list is. -/
theorem FormatSpec.elementShape_normalize {f : FormatSpec} (h : f.arguments.Positive) (n : ℕ) :
    elementShape n { f with arguments := f.arguments.normalize } =
      (f.elementShape n).map Shape.normalize := by
  rw [elementShape, elementShape, ArgList.isFinite_normalize h]
  cases hfin : f.arguments.isFinite with
  | false => rfl
  | true =>
      simp only [ArgList.extent_normalize h hfin, Bool.not_true, Bool.false_eq_true, if_false]
      split <;> rfl

theorem FormatSpec.elementShape_error {f : FormatSpec} (hfin : f.arguments.isFinite = true)
    (h1 : Segment.extent f.arguments.initial ≠ 1) (h2 : Segment.extent f.arguments.initial ≠ 2)
    (n : ℕ) :
    f.elementShape n = .error (.compoundArity n (Segment.extent f.arguments.initial)) := by
  simp only [elementShape, hfin, Bool.not_true, Bool.false_eq_true, if_false]

/-- Only finite lists of one argument or two describe elements. -/
theorem FormatSpec.elementShape_ok_iff (f : FormatSpec) (n : ℕ) :
    (∃ t, f.elementShape n = .ok t) ↔ f.arguments.isFinite = true ∧
      (Segment.extent f.arguments.initial = 1 ∨ Segment.extent f.arguments.initial = 2) := by
  constructor
  · rintro ⟨t, ht⟩
    cases hfin : f.arguments.isFinite with
    | false =>
        rw [elementShape, hfin] at ht
        cases ht
    | true =>
        refine ⟨rfl, ?_⟩
        by_contra hcount
        obtain ⟨h1, h2⟩ := not_or.mp hcount
        rw [elementShape_error hfin h1 h2] at ht
        cases ht
  · rintro ⟨hfin, hcount | hcount⟩
    · exact ⟨_, elementShape_of_arity hfin (k := .sequences) (by rw [hcount]; decide) n⟩
    · exact ⟨_, elementShape_of_arity hfin (k := .tables) (by rw [hcount]; decide) n⟩

/-- What is read does not depend on the place where it is written. -/
theorem Format.Spells.result_eq {f : Format} {d d' : Directives} (h : f.Spells d)
    (h' : f.Spells d') (l : Level) : (d.read l).result = (d'.read l).result := by
  induction h generalizing d' l with
  | done =>
      cases h'
      rfl
  | text _ ih =>
      cases h' with
      | text h' => exact ih h' l
  | @value p s _ _ _ _ _ ih =>
      cases h' with
      | value h' =>
          rw [Directives.read, Directives.read]
          cases l.add p.head (.plain s.kinds) with
          | none => rfl
          | some l' => exact ih h' l'
  | @compound p _ _ _ e _ _ _ _ _ _ ihbody ih =>
      cases h' with
      | compound hbody' h' =>
          simp only [Directives.read, Reading.after, ihbody hbody' .outset]
          split
          · rfl
          · rename_i f _
            cases f.elementShape (l.directives + 1) with
            | error => rfl
            | ok t =>
                dsimp only
                cases l.add p.head t with
                | none => rfl
                | some l' => exact ih h' l'

/-- A directive with nothing before its specifier requires one argument. All that was known of it
is that it may be of any type, so it has the shape that the directive asks for. -/
theorem Level.result_single (t : Shape) : ∃ l, outset.add Opening.bare.preamble.head t = some l ∧
    l.finish = .ok ⟨1, 1, .finite [⟨1, .required, t⟩]⟩ :=
  ⟨_, rfl, rfl⟩

/-- The list of a single required argument is in normal form if its shape is. -/
theorem ArgList.normalize_single (t : Shape) :
    (finite [⟨1, .required, t⟩]).normalize = .finite [⟨1, .required, t.normalize⟩] := by
  have hshortest : shortestLoop [] = [] := by decide
  simp only [normalize, finite, Run.normalizeList, Run.normalize, normalizeOutermost,
    Segment.coalesce, hshortest]
  rfl

namespace FormatString
variable {b s : String} {f : FormatSpec}

/-- The level of an accepted string, before its list is brought into normal form. -/
theorem exists_level (h : (parse b).result = .ok f) : ∃ w : Wording, b.toList = w.chars ∧
    ∃ d g, w.format.Spells d ∧ (d.read .outset).result = .ok g ∧ g.arguments.Positive ∧
      f = { g with arguments := g.arguments.normalize } := by
  obtain ⟨w, hchars, hregular, hspells⟩ := exists_wording h
  have hread := hspells.read hregular.1 hregular.2 Level.holds_outset (.inl rfl)
  refine ⟨w, hchars, Directives.ofText b.toList, ?_⟩
  rw [parse, ofText] at h
  cases hresult : ((Directives.ofText b.toList).read .outset).result with
  | error e =>
      simp only [hresult] at h
      cases h
  | ok g =>
      simp only [hresult] at h hread
      cases h
      exact ⟨g, hspells, rfl, hread.requires.positive, rfl⟩

/-- A compound directive alone is a format string if its body is one with a list for elements. -/
theorem result_compound (hb : (parse b).result = .ok f) {delimiter : Option (List Char)}
    (hs : s.toList = '%' :: '(' :: b.toList ++ closing delimiter) : (parse s).result =
      (f.elementShape 1).map fun t => ⟨1, 1, .finite [⟨1, .required, t⟩]⟩ := by
  obtain ⟨w, hchars, d, g, hbody, hg, hpositive, rfl⟩ := exists_level hb
  have hwording : s.toList = (Wording.compound .bare w ⟨.bare, delimiter⟩ .done).chars := by
    rw [hs, hchars, ← Format.text_closing]
    simp [Wording.chars, Opening.bare, Opening.text, Opening.widthText, Opening.precisionText,
      Opening.separatorText, WrittenPosition.text]
  have hspells := (Wording.compound .bare w ⟨.bare, delimiter⟩ .done).spells_ofText
  rw [← hwording] at hspells
  rw [parse, ofText, FormatSpec.elementShape_normalize hpositive]
  generalize Directives.ofText s.toList = e at hspells
  cases hspells with
  | compound hinner hdone =>
      cases hdone
      have hresult := (hinner.result_eq hbody .outset).trans hg
      have hfirst : Level.outset.directives + 1 = 1 := rfl
      simp only [Directives.read, Reading.after, hresult, hfirst]
      cases g.elementShape 1 with
      | error fault => rfl
      | ok t =>
          obtain ⟨l, hadd, hfinish⟩ := Level.result_single t
          simp only [hadd, hfinish, Except.map, ArgList.normalize_single]

/-- A string without `%` is a delimiter as it is. -/
theorem flatMap_escape {d : List Char} (hd : '%' ∉ d) : d.flatMap escape = d := by
  induction d with
  | nil => rfl
  | cons c cs ih =>
      obtain ⟨hc, hcs⟩ := not_or.mp (List.mem_cons.not.mp hd)
      rw [List.flatMap_cons, ih hcs, escape, if_neg (Ne.symm hc)]
      rfl

/-- A format string `b` as the body of a compound directive, with or without a delimiter `d`. The
directive is accepted exactly if the list of the body is finite and has one argument or two, and
then has a single required argument, whose elements are described by that very list; otherwise the
fault says what is wrong with the list. -/
theorem parse_compound {d : String} (hb : (parse b).result = .ok f) (hd : '%' ∉ d.toList)
    (hs : s = "%(" ++ b ++ "%)" ∨ s = "%(" ++ b ++ "%|" ++ d ++ "%)") :
    let count := Segment.extent f.arguments.initial
    let accepted (k : Kinds) : Prop := (parse s).result =
      .ok ⟨1, 1, .finite [⟨1, .required, .compound k f.arguments.initial f.arguments.repeated⟩]⟩
    ((∃ g, (parse s).result = .ok g) ↔ f.arguments.isFinite = true ∧ (count = 1 ∨ count = 2)) ∧
    (f.arguments.isFinite = true → count = 1 → accepted .sequences) ∧
    (f.arguments.isFinite = true → count = 2 → accepted .tables) ∧
    (f.arguments.isFinite = true → count ≠ 1 → count ≠ 2 →
      (parse s).result = .error (.compoundArity 1 count)) ∧
    (f.arguments.isFinite = false → (parse s).result = .error (.compoundUnbounded 1)) := by
  intro count accepted
  have hclosing : ∃ delimiter, s.toList = '%' :: '(' :: b.toList ++ closing delimiter := by
    rcases hs with rfl | rfl
    · exact ⟨none, by simp [closing]⟩
    · exact ⟨some d.toList, by simp [closing, flatMap_escape hd]⟩
  obtain ⟨delimiter, hs⟩ := hclosing
  have hresult := result_compound hb hs
  have haccepted (hfin : f.arguments.isFinite = true) {k : Kinds} (hk : k.arity = some count) :
      accepted k := by
    rw [FormatSpec.elementShape_of_arity hfin hk] at hresult
    exact hresult
  refine ⟨?_, fun hfin hcount => ?_, fun hfin hcount => ?_, fun hfin h1 h2 => ?_, fun hfin => ?_⟩
  · rw [← f.elementShape_ok_iff 1, hresult]
    cases f.elementShape 1 with
    | error fault => simp [Except.map]
    | ok t => simp [Except.map]
  · exact haccepted hfin (by rw [hcount]; decide)
  · exact haccepted hfin (by rw [hcount]; decide)
  · rw [hresult, FormatSpec.elementShape_error hfin h1 h2]
    rfl
  · rw [hresult, FormatSpec.elementShape, hfin]
    rfl

/-- A body with numbered references, a compound directive of its own and a character of more than
one byte. -/
theorem parse_compound_nested :
    let b := "%2$s→%1$(%d%|%)"
    let d := "é,"
    ∃ f, (parse b).result = .ok f ∧ '%' ∉ d.toList ∧
      f.arguments.isFinite = true ∧ Segment.extent f.arguments.initial = 2 ∧
      (parse ("%(" ++ b ++ "%|" ++ d ++ "%)")).result =
        .ok ⟨1, 1, .finite
          [⟨1, .required, .compound .tables f.arguments.initial f.arguments.repeated⟩]⟩ := by
  intro b d
  let numbers : Shape := .plain (.ofList [.bool, .integer, .char])
  let list : ArgList := .finite
    [⟨1, .required, .compound .sequences [⟨1, .required, numbers⟩] []⟩, ⟨1, .required, .any⟩]
  have hb : (parse b).result = .ok ⟨2, 2, list⟩ := by decide +kernel
  have hd : '%' ∉ d.toList := by decide
  exact ⟨_, hb, hd, rfl, rfl, (parse_compound hb hd (.inr rfl)).2.2.1 rfl rfl⟩

end FormatString

end CatalogLint
