import CatalogLint.Proofs.Format.Counting

/-!
# The marks that reading leaves

Reading marks the directives that it has scanned at their places (`Directives.Between.marks`), so
that the outermost directives found again from the marks are pieces of the string in their order,
whether it is accepted or not (`FormatString.inOrder_spans`). Of a wording that is read without a
fault, the marks are those of the wording (`Wording.read_directives`).
-/
namespace CatalogLint

variable {text : List Char} {low low' high high' start opening stop : ℕ} {head : Head}
  {kinds : Kinds} {body rest d : Directives} {l l' : Level} {spec : FormatSpec}

/-! ### Where the marks are -/

namespace Mark

/-- A mark from a place of a text on and before another one. Directives start and stop between two
characters. -/
def Within (text : List Char) (low high : ℕ) : Mark → Prop
  | .start n => low ≤ n ∧ n < high ∧ Text.isBoundary text n = true
  | .stop n => low < n ∧ n < high ∧ Text.isBoundary text (n + 1) = true
  | .fault n => low ≤ n ∧ n < high

variable {m : Mark}

theorem Within.place (h : m.Within text low high) : low ≤ m.place ∧ m.place < high := by
  cases m with
  | start n => exact ⟨h.1, h.2.1⟩
  | stop n => exact ⟨h.1.le, h.2.1⟩
  | fault n => exact h

theorem Within.mono (h : m.Within text low high) (hlow : low' ≤ low) (hhigh : high ≤ high') :
    m.Within text low' high' := by
  cases m with
  | start n => exact ⟨hlow.trans h.1, h.2.1.trans_le hhigh, h.2.2⟩
  | stop n => exact ⟨hlow.trans_lt h.1, h.2.1.trans_le hhigh, h.2.2⟩
  | fault n => exact ⟨hlow.trans h.1, h.2.trans_le hhigh⟩

end Mark

/-- The marks are on the directives, from the place on where these start. -/
theorem Directives.Between.marks (h : d.Between text low high) (l : Level) :
    ∀ m ∈ (d.read l).marks, m.Within text low high := by
  induction h generalizing l with
  | done => exact nofun
  | unclosed => exact nofun
  | faulty hstart hb hplace hhigh =>
      rw [Directives.read, Reading.fail, List.forall_mem_cons, List.forall_mem_singleton]
      exact ⟨⟨hstart, hplace.trans_lt hhigh, hb⟩, hstart.trans hplace, hhigh⟩
  | @value low high start stop head kinds rest hstart hb hstop hb' hrest ih =>
      have hle := hrest.le
      have hfirst : Mark.Within text low high (.start start) := ⟨hstart, by omega, hb⟩
      rcases read_value_cases start head kinds stop rest l with ⟨fault, hread⟩ | ⟨l', -, hread⟩
      · rw [hread, Reading.fail, List.forall_mem_cons, List.forall_mem_singleton]
        exact ⟨hfirst, by omega, by omega⟩
      · have hlast : Mark.Within text low high (.stop (stop - 1)) :=
          ⟨by omega, by omega, (Nat.sub_add_cancel (Nat.one_le_of_lt hstop)).symm ▸ hb'⟩
        rw [hread, Reading.after, List.forall_mem_append, List.forall_mem_cons,
          List.forall_mem_singleton]
        exact ⟨⟨hfirst, hlast⟩, fun m hm => (ih l' m hm).mono (by omega) le_rfl⟩
  | @compound low high start opening stop head body rest hstart hb hopening hbody hb' hrest ihbody
      ih =>
      have hinside := hbody.le
      have hle := hrest.le
      have hinner : ∀ m ∈ .start start :: (body.read .outset).marks, m.Within text low high := by
        rw [List.forall_mem_cons]
        exact ⟨⟨hstart, by omega, hb⟩, fun m hm => (ihbody .outset m hm).mono (by omega) (by omega)⟩
      rcases read_compound_cases start head opening body stop rest l with
        ⟨fault, -, hread⟩ | ⟨f, -, ⟨place, fault, hplace, hread⟩ | ⟨t, l', -, -, hread⟩⟩
      · rw [hread, Reading.fail, List.forall_mem_append, List.forall_mem_singleton]
        exact ⟨hinner, by omega, by omega⟩
      · rw [hread, Reading.fail, List.forall_mem_append, List.forall_mem_singleton]
        exact ⟨hinner, by omega, by omega⟩
      · have hlast : Mark.Within text low high (.stop (stop - 1)) :=
          ⟨by omega, by omega, (Nat.sub_add_cancel (show 1 ≤ stop by omega)).symm ▸ hb'⟩
        rw [hread, Reading.after, List.forall_mem_append, List.forall_mem_append,
          List.forall_mem_singleton]
        exact ⟨⟨hinner, hlast⟩, fun m hm => (ih l' m hm).mono (by omega) le_rfl⟩
  | @broken low high start opening body hstart hb hopening hhigh hbody ihbody =>
      obtain ⟨fault, -, hread⟩ := read_broken_cases start opening body l
      rw [hread, Reading.fail, List.forall_mem_append, List.forall_mem_cons,
        List.forall_mem_singleton]
      exact ⟨⟨⟨hstart, by omega, hb⟩, fun m hm => (ihbody .outset m hm).mono (by omega) le_rfl⟩,
        by omega, hhigh⟩

/-- The marks of a level are on the text from its place on. -/
theorem within_scan {c : Cursor} (hc : c.In text) (b : Bool) (k : ℕ) (l : Level) :
    ∀ m ∈ ((scan b k c).directives.read l).marks,
      m.Within text c.place (Text.byteLength text) := by
  obtain ⟨hbetween, hafter⟩ := scan_between b k c hc
  have hend : levelEnd text (scan b k c).after ≤ Text.byteLength text := by
    cases hf : (scan b k c).after with
    | none => exact le_rfl
    | some f => exact (Nat.sub_le _ _).trans (Nat.le.intro (hafter f hf).place_add)
  exact fun m hm => (hbetween.marks l m hm).mono le_rfl hend

namespace FormatString

/-- The marks on a string. -/
def marks (s : String) : List Mark :=
  ((Directives.ofText s.toList).read .outset).marks

theorem spans_eq (s : String) : (parse s).spans = Span.shown s.toList (marks s) 0 0 0 :=
  Span.spans_ofMarks s.toList (marks s)

theorem within_marks (s : String) :
    ∀ m ∈ marks s, m.Within s.toList 0 (Text.byteLength s.toList) :=
  within_scan (Cursor.in_start s.toList) false 0 .outset

/-- The outermost directives of a string, accepted or not, are pieces of it in their order. -/
theorem inOrder_spans (s : String) : Span.InOrder s.toList 0 (parse s).spans := by
  have hwithin := within_marks s
  exact Span.inOrder_spans (fun n hn => (hwithin _ hn).2.2) fun n hn => (hwithin _ hn).2.2

/-- A fault shows at the byte. -/
def faultyAt (f : FormatString) (n : ℕ) : Bool :=
  f.indicators[n]?.any Indicator.faulty

theorem indicators_eq (s : String) : (parse s).indicators =
    (List.range (Text.byteLength s.toList)).map (Indicator.ofByte (marks s)) :=
  Indicator.ofMarks_eq _ _

theorem length_indicators (s : String) :
    (parse s).indicators.length = Text.byteLength s.toList := by
  rw [indicators_eq, List.length_map, List.length_range]

theorem faultyAt_iff (s : String) (n : ℕ) : (parse s).faultyAt n = true ↔ .fault n ∈ marks s := by
  rw [faultyAt, indicators_eq, List.getElem?_map]
  rcases Nat.lt_or_ge n (Text.byteLength s.toList) with hlt | hge
  · rw [List.getElem?_range hlt]
    exact decide_eq_true_iff
  · have hmem : .fault n ∉ marks s := fun h => (within_marks s _ h).2.not_ge hge
    simp [hge, hmem]

/-- The first fault shows at the character that it is in. -/
theorem exists_faultSpan {s : String} {n : ℕ}
    (h : (parse s).indicators.findIdx? Indicator.faulty = some n) :
    ∃ a, Span.IsCharacter s.toList n a ∧ (parse s).faultSpan? = some a := by
  have hlt : n < Text.byteLength s.toList := by
    obtain ⟨hlt, -⟩ := List.findIdx?_eq_some_iff_getElem.mp h
    rwa [length_indicators] at hlt
  obtain ⟨front, c, rest, hs, hle, hlt⟩ := Text.exists_character hlt
  refine ⟨_, ⟨front, c, rest, hs, rfl, hle, hlt⟩, ?_⟩
  have hstart : Text.boundaryUpTo s.toList n = Text.byteLength front := by
    rw [hs, Text.boundaryUpTo_append hle hlt]
  have hrest : Text.dropBytes (Text.byteLength front) s.toList = some (c :: rest) := by
    rw [hs, Text.dropBytes_append]
  have htext : (parse s).text = s.toList := rfl
  rw [faultSpan?, Span.faultSpan?, h, Option.map_some, htext, hstart]
  dsimp only
  rw [hrest]

/-- The least place of a fault is the one that shows. -/
theorem findIdx?_faulty {s : String} {n : ℕ} (h : .fault n ∈ marks s)
    (hleast : ∀ m, .fault m ∈ marks s → n ≤ m) :
    (parse s).indicators.findIdx? Indicator.faulty = some n := by
  have hlt : n < (parse s).indicators.length := by
    rw [length_indicators]
    exact (within_marks s _ h).2
  have hfaulty : ∀ (m : ℕ) (hm : m < (parse s).indicators.length),
      (parse s).indicators[m].faulty = true ↔ .fault m ∈ marks s := by
    intro m hm
    have hiff := faultyAt_iff s m
    rwa [faultyAt, List.getElem?_eq_getElem hm, Option.any_some] at hiff
  rw [List.findIdx?_eq_some_iff_getElem]
  refine ⟨hlt, (hfaulty n hlt).mpr h, fun m hm hf => ?_⟩
  exact Nat.not_le.mpr hm (hleast m ((hfaulty m _).mp hf))

end FormatString

/-! ### Counting directives -/

namespace Level
variable {t : Shape} {p : Position} {qs : List (Position × Kinds)}

theorem directives_convert (h : l.convert t p = some l') : l'.directives = l.directives := by
  cases p with
  | next =>
      obtain ⟨n, -, hn⟩ := Option.map_eq_some_iff.mp h
      rw [← hn]
      rfl
  | single m =>
      cases h
      rfl
  | range m n =>
      cases h
      rfl
  | toLast m =>
      cases h
      rfl

theorem directives_converts (h : l.converts qs = some l') : l'.directives = l.directives := by
  induction qs generalizing l with
  | nil =>
      cases h
      rfl
  | cons q qs ih =>
      rw [converts, List.foldlM_cons] at h
      obtain ⟨a, ha, h⟩ := Option.bind_eq_some_iff.mp h
      rw [ih h, directives_convert ha]

theorem directives_add (h : l.add head t = some l') : l'.directives = l.directives + 1 := by
  rw [add_eq] at h
  obtain ⟨b, hb, h⟩ := Option.bind_eq_some_iff.mp h
  obtain ⟨a, ha, hb⟩ := Option.bind_eq_some_iff.mp hb
  cases h
  rw [directives_convert hb, directives_converts ha]

theorem eq_of_finish_error {fault : Fault} (h : l.finish = .error fault) :
    fault = .conflictingUses := by
  rw [finish] at h
  split at h
  · cases h
    rfl
  · cases h

theorem directives_finish (h : l.finish = .ok spec) : spec.directives = l.directives := by
  rw [finish] at h
  split at h
  · cases h
  · cases h
    rfl

end Level

/-- A wording that is read without a fault leaves its marks, and counts its directives. -/
theorem Wording.read_directives {w : Wording} {n : ℕ}
    (h : ((w.directives n .done).read l).result = .ok spec) :
    ((w.directives n .done).read l).marks = w.marks n ∧
      spec.directives = l.directives + w.pieces.length := by
  induction w generalizing n l spec with
  | done => exact ⟨rfl, Level.directives_finish h⟩
  | text c rest ih => exact ih h
  | value o s rest ih =>
      rw [directives] at h ⊢
      rcases Directives.read_value_cases n o.head s.kinds _ (rest.directives _ .done) l with
        ⟨fault, hread⟩ | ⟨l', hadd, hread⟩
      · rw [hread] at h
        cases h
      · rw [hread] at h ⊢
        obtain ⟨hmarks, hcount⟩ := ih h
        rw [Reading.after, hmarks, hcount, Level.directives_add hadd, pieces, List.length_cons]
        exact ⟨rfl, by omega⟩
  | compound o body closing rest ihbody ih =>
      rw [directives] at h ⊢
      rcases Directives.read_compound_cases n o.head _ (body.directives _ .done) _
          (rest.directives _ .done) l with
        ⟨fault, -, hread⟩ | ⟨f, hinner, ⟨place, fault, -, hread⟩ | ⟨t, l', -, hadd, hread⟩⟩
      · rw [hread] at h
        cases h
      · rw [hread] at h
        cases h
      · rw [hread] at h ⊢
        obtain ⟨hmarks, hcount⟩ := ih h
        rw [Reading.after, hmarks, (ihbody hinner).1, hcount, Level.directives_add hadd, pieces,
          List.length_cons]
        exact ⟨by simp [marks], by omega⟩

/-- The marks on a string that is accepted, and how many directives it has. -/
theorem FormatString.marks_eq {s : String} {w : Wording} (hw : s.toList = w.chars)
    (h : (parse s).result = .ok spec) :
    marks s = w.marks 0 ∧ spec.directives = w.pieces.length := by
  have htext : Directives.ofText s.toList = w.directives 0 .done := hw ▸ w.directives_ofText
  rw [parse, ofText, htext] at h
  rw [marks, htext]
  cases hread : ((w.directives 0 .done).read .outset).result with
  | error fault =>
      simp only [hread] at h
      cases h
  | ok f =>
      simp only [hread] at h
      cases h
      obtain ⟨hmarks, hcount⟩ := Wording.read_directives hread
      exact ⟨hmarks, hcount.trans (Nat.zero_add _)⟩

end CatalogLint
