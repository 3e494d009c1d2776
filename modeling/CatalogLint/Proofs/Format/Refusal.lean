import CatalogLint.Proofs.Format.Spans

/-!
# The marks on a refused string

A string that is refused for its syntax is shown up to its only fault (`FormatString.ShowsFault`),
unless the fault is passed on from the body of a compound directive. It is then marked once more at
the first byte of the body, where the piece ends that shows the directive; what is left of the body
is shown on its own (`FormatString.ShowsBody`). All refused strings are of one of these two kinds
(`FormatString.spans_of_error`).
-/
namespace CatalogLint

variable {text cs : List Char} {n place k : ℕ} {l l' l'' : Level} {f : FormatSpec} {fault : Fault}

/-- The body of a compound directive that starts at a place. -/
def Opening.opened (o : Opening) (n : ℕ) (body : List Char) : Cursor :=
  ⟨n + Text.byteLength (o.before '('), body⟩

/-- What reading the body of a compound directive yields. -/
def readBody (c : Cursor) : Reading :=
  (scan true 0 c).directives.read .outset

/-- A body that can be read is a wording, whose marks it bears, with a closing after it. -/
theorem exists_body {c : Cursor} (hin : c.In text) (h : (readBody c).result = .ok f) :
    ∃ (v : Wording) (closing : Closing) (w : List Char), c.rest = v.chars ++ (closing.text ++ w) ∧
      (readBody c).marks = v.marks c.place ∧ (scan true 0 c).after =
        some ⟨c.place + Text.byteLength v.chars + Text.byteLength closing.text, w⟩ := by
  obtain ⟨v, tail, -, hrest, closing, g, -, rfl⟩ := scan_wording true 0 c ⟨.outset, f, h⟩
  obtain ⟨n, cs⟩ := c
  obtain rfl : cs = v.chars ++ (closing.text ++ g.rest) := hrest
  obtain ⟨hdirectives, hafter⟩ := Wording.scan_body hin (v.scan_append _ hin)
  rw [readBody, hdirectives] at h ⊢
  exact ⟨v, closing, g.rest, rfl, (Wording.read_directives h).1, hafter⟩

/-- The marks of a directive that cannot be read. -/
inductive Refused (n : ℕ) (rest : List Char) (fault : Fault) : List Mark → Prop where
  /-- The fault shows at the directive. -/
  | here {place : ℕ} (hle : n ≤ place) : Refused n rest fault [.start n, .fault place]
  /-- The fault shows at the end of a compound directive. -/
  | closed {place opening : ℕ} (v : Wording) (hopening : n < opening)
      (hle : opening + Text.byteLength v.chars ≤ place) :
      Refused n rest fault (.start n :: v.marks opening ++ [.fault place])
  /-- The fault is in the body of a compound directive. -/
  | inside {o : Opening} {body : List Char} {opened : Cursor}
      (hrest : '%' :: rest = o.before '(' ++ body) (hopened : opened = o.opened n body)
      (hbody : (readBody opened).result = .error fault) :
      Refused n rest fault (.start n :: (readBody opened).marks ++ [.fault opened.placeOrLast])

/-- The marks from a cursor on are those of a wording, and of a directive that cannot be read. -/
def RefusedFrom (c : Cursor) (fault : Fault) (marks : List Mark) : Prop :=
  ∃ (w : Wording) (rest : List Char) (ms : List Mark), c.rest = w.chars ++ '%' :: rest ∧
    marks = w.marks c.place ++ ms ∧ Refused (c.place + Text.byteLength w.chars) rest fault ms

theorem Wording.marks_withText (t : List Char) (w : Wording) (n : ℕ) :
    (w.withText t).marks n = w.marks (n + Text.byteLength (t.flatMap escape)) := by
  induction t generalizing n with
  | nil => rfl
  | cons c t ih =>
      rw [List.flatMap_cons, Text.byteLength_append, ← Nat.add_assoc]
      exact ih _

namespace RefusedFrom
variable {c d : Cursor} {marks : List Mark} {o : Opening}

/-- Text may stand before. -/
theorem withText {t : List Char} (h : RefusedFrom d fault marks)
    (hc : c.rest = t.flatMap escape ++ d.rest)
    (hd : d.place = c.place + Text.byteLength (t.flatMap escape)) :
    RefusedFrom c fault marks := by
  obtain ⟨w, rest, ms, hrest, rfl, h⟩ := h
  refine ⟨w.withText t, rest, ms, ?_, ?_, ?_⟩
  · rw [hc, hrest, Wording.chars_withText, List.append_assoc]
  · rw [Wording.marks_withText, ← hd]
  · rwa [Wording.chars_withText, Text.byteLength_append, ← Nat.add_assoc, ← hd]

theorem value {s : Specifier} (h : RefusedFrom d fault marks)
    (hc : c.rest = o.before s.letter ++ d.rest)
    (hd : d.place = c.place + Text.byteLength (o.before s.letter)) :
    RefusedFrom c fault (.start c.place :: .stop (d.place - 1) :: marks) := by
  obtain ⟨w, rest, ms, hrest, rfl, h⟩ := h
  refine ⟨.value o s w, rest, ms, ?_, ?_, ?_⟩
  · rw [hc, hrest, Wording.chars_value, List.append_assoc]
  · rw [Wording.marks, ← hd]
    rfl
  · rwa [Wording.chars_value, Text.byteLength_append, ← Nat.add_assoc, ← hd]

theorem compound {v : Wording} {closing : Closing} (h : RefusedFrom d fault marks)
    (hc : c.rest = Wording.compoundText o v closing ++ d.rest)
    (hd : d.place = c.place + Text.byteLength (Wording.compoundText o v closing)) :
    RefusedFrom c fault (.start c.place :: (v.marks (c.place + Text.byteLength (o.before '(')) ++
      .stop (d.place - 1) :: marks)) := by
  obtain ⟨w, rest, ms, hrest, rfl, h⟩ := h
  refine ⟨.compound o v closing w, rest, ms, ?_, ?_, ?_⟩
  · rw [hc, hrest, Wording.chars_compound, List.append_assoc]
  · rw [Wording.marks, ← hd]
    simp
  · rwa [Wording.chars_compound, Text.byteLength_append, ← Nat.add_assoc, ← hd]

/-- Plain text may stand before the next directive. -/
theorem next {start : ℕ} (hc : c.In text)
    (h₁ : Cursor.nextDirective? c.place c.rest = some (start, cs))
    (h : RefusedFrom ⟨start, '%' :: cs⟩ fault marks) : RefusedFrom c fault marks := by
  obtain ⟨t, ht⟩ := exists_text c.place c.rest
  rw [h₁] at ht
  have hstart : start = c.place + Text.byteLength (t.flatMap escape) :=
    hc.place_eq (hc.nextDirective? h₁).1 ht
  exact h.withText ht hstart

/-- The first directive cannot be read. -/
theorem first {start : ℕ} (hc : c.In text)
    (h₁ : Cursor.nextDirective? c.place c.rest = some (start, cs))
    (h : Refused start cs fault marks) : RefusedFrom c fault marks :=
  .next hc h₁ ⟨.done, cs, marks, rfl, rfl, h⟩

end RefusedFrom

/-- What has been scanned up to a specifier. -/
theorem exists_before {start : ℕ} {head : Head} {d : Cursor} {s : Char} {rest : List Char}
    (hin : Cursor.In text ⟨start, '%' :: cs⟩)
    (h₂ : scanHead k ⟨start + 1, cs⟩ = .ok (head, d)) (h₃ : d.rest = s :: rest) :
    ∃ o : Opening, '%' :: cs = o.before s ++ rest ∧
      d.place + s.utf8Size = start + Text.byteLength (o.before s) := by
  obtain ⟨o, -, hcs⟩ := exists_opening h₂
  have hnext : Cursor.In text ⟨start + 1, cs⟩ := hin.cons
  have hplace : d.place = start + 1 + Text.byteLength o.text :=
    hnext.place_eq (hnext.scanHead h₂).1 hcs
  have hcs : cs = o.text ++ d.rest := hcs
  exact ⟨o, by simp [hcs, h₃, Opening.before], hplace ▸ o.place_before s start⟩

/-- What cannot be read starts with a wording, whose marks it bears, and then a directive that
cannot be read. -/
theorem refusedFrom_scan {b : Bool} {high : ℕ} (k : ℕ) (c : Cursor) (hb : b = false)
    (hc : c.In text) (hbetween : (scan b k c).directives.Between text c.place high) (l : Level)
    (h : ((scan b k c).directives.read l).result = .error fault) (hne : fault ≠ .conflictingUses) :
    RefusedFrom c fault ((scan b k c).directives.read l).marks := by
  -- No level is left by a closing here, since the outermost one has none: `hb` refutes those cases.
  fun_induction scan b k c generalizing l with
  | case1 b count c h₁ =>
      subst hb
      exact absurd (Level.eq_of_finish_error h) hne
  | case2 b count c start cs h₁ f h₂ =>
      cases hbetween with | faulty _ _ hplace _ => exact .first hc h₁ (.here hplace)
  | case3 b count c start cs h₁ head d h₂ hrest =>
      cases hbetween with | faulty _ _ hplace _ => exact .first hc h₁ (.here hplace)
  | case4 b count c start cs h₁ head d h₂ s rest h₃ e he kinds hk r ih =>
      cases hbetween with
      | value _ _ hstop _ hrest =>
      rcases Directives.read_value_cases start head kinds e.place r.directives l with
        ⟨fault', hread⟩ | ⟨l', -, hread⟩
      · rw [hread]
        exact .first hc h₁ (.here (by omega))
      · rw [hread] at h ⊢
        have hin := (hc.nextDirective? h₁).1
        obtain ⟨o, hcs, hplace⟩ := exists_before hin h₂ h₃
        have hnext := ih hb ((hc.directive h₁ h₂).2.2.1.next h₃) hrest l' h
        exact .next hc h₁ (hnext.value (s := ⟨s, kinds, hk⟩) hcs hplace)
  | case5 b count c start cs h₁ head d h₂ rest h₃ e he hs body h₄ ihbody =>
      obtain ⟨o, hcs, hplace⟩ := exists_before (hc.nextDirective? h₁).1 h₂ h₃
      have heq : e = o.opened start rest := congrArg (Cursor.mk · rest) hplace
      obtain ⟨fault', hbody, hread⟩ :=
        Directives.read_broken_cases start e.placeOrLast body.directives l
      simp only [Scanned.stop, hread] at h ⊢
      cases h
      rcases hbody with hbody | ⟨f, hbody⟩
      · exact .first hc h₁ (.inside hcs heq hbody)
      · obtain ⟨v, closing, w, -, -, hafter⟩ :=
          exists_body ((hc.directive h₁ h₂).2.2.1.next h₃) hbody
        cases h₄.symm.trans hafter
  | case6 b count c start cs h₁ head d h₂ rest f r h₃ e he hs body h₄ hf ihbody _ ih =>
      obtain ⟨o, hcs, hplace⟩ := exists_before (hc.nextDirective? h₁).1 h₂ h₃
      have heq : e = o.opened start rest := congrArg (Cursor.mk · rest) hplace
      have hin : e.In text := (hc.directive h₁ h₂).2.2.1.next h₃
      rcases Directives.read_compound_cases start head e.placeOrLast body.directives f.place
          r.directives l with
        ⟨fault', hbody, hread⟩ | ⟨g, hbody, hread⟩
      · simp only [hread] at h ⊢
        cases h
        exact .first hc h₁ (.inside hcs heq hbody)
      -- The body can be read, so it is a wording, and the level goes on behind its closing.
      obtain ⟨v, closing, w, hv, hmarks, hafter⟩ := exists_body hin hbody
      have hv : rest = v.chars ++ (closing.text ++ w) := hv
      have hmarks : (body.directives.read .outset).marks = v.marks e.place := hmarks
      obtain rfl := Option.some.inj (h₄.symm.trans hafter)
      have hopening : e.place = start + Text.byteLength (o.before '(') := hplace
      have hlen := Wording.two_le_before o '('
      have hclosing := Wording.two_le_closing closing
      rw [hmarks] at hread
      rcases hread with ⟨place, fault', hp, hread⟩ | ⟨t, l', -, -, hread⟩
      · simp only [hread] at h ⊢
        cases h
        exact .first hc h₁ (.closed v (by omega) (by dsimp only at hp; omega))
      · cases hbetween with
        | compound _ _ _ _ _ hrest =>
        simp only [hread] at h ⊢
        have hnext := ih hb ((scan_between true 0 e hin).2 _ h₄) hrest l' h
        have hdirective : '%' :: cs = Wording.compoundText o v closing ++ w := by
          simp [hcs, hv, Wording.compoundText]
        have hcompound := hnext.compound (c := ⟨start, '%' :: cs⟩) hdirective
          (by rw [Wording.place_compoundText, ← hopening])
        rw [← hopening] at hcompound
        refine .next hc h₁ ?_
        simp only [Reading.after, List.cons_append, List.append_assoc]
        exact hcompound
  | case8 b count c start cs h₁ head d h₂ rest _ h₃ =>
      cases hbetween with | faulty _ _ hplace _ => exact .first hc h₁ (.here hplace)
  | case11 b count c start cs h₁ head d h₂ rest _ h₃ =>
      cases hbetween with | faulty _ _ hplace _ => exact .first hc h₁ (.here hplace)
  | case12 b count c start cs h₁ head d h₂ s rest h₃ =>
      cases hbetween with | faulty _ _ hplace _ => exact .first hc h₁ (.here hplace)
  | _ => cases hb

/-! ### What the marks show -/

namespace Span
variable {marks : List Mark} {p : ℕ}

/-- The first mark after the start of an open directive is a fault. -/
theorem shown_next_fault (hle : place ≤ p) (hlt : p < Text.byteLength text)
    (hfault : .fault p ∈ marks) (hstop : .stop p ∉ marks) (h : ∀ m ∈ marks, p ≤ m.place) :
    let stop := Text.boundaryFrom text (p + 1)
    shown text marks place 1 n = ⟨n, stop⟩ :: shown text marks stop 0 0 := by
  dsimp only
  rw [shown_quiet hle fun m hm => .inr (h m hm), shown_fault hlt hfault hstop (.inl Nat.one_pos)]
  rfl

/-- Nothing is shown after the last mark. -/
theorem shown_past (hlt : p < Text.byteLength text) (h : ∀ m ∈ marks, m.place ≤ p) :
    shown text marks (Text.boundaryFrom text (p + 1)) 0 0 = [] := by
  have hle : p + 1 ≤ Text.boundaryFrom text (p + 1) := (Text.boundaryFrom_spec hlt).1
  have hnone : ∀ m : Mark, Text.boundaryFrom text (p + 1) ≤ m.place → (m ∈ marks ↔ m ∈ []) := by
    intro m hm
    simp only [List.not_mem_nil, iff_false]
    intro hmem
    have := h m hmem
    omega
  rw [shown_congr hnone, shown_nil]

end Span

/-- The marks of a directive that ends with the character of its first fault, and the pieces that
the marks show after it. -/
structure EndsAt (text : List Char) (n p : ℕ) (marks : List Mark) (after : List Span) : Prop where
  le_place : ∀ m ∈ marks, n ≤ m.place
  fault : .fault p ∈ marks
  least : ∀ m, .fault m ∈ marks → p ≤ m
  shown : Span.shown text marks n 0 0 = ⟨n, Text.boundaryFrom text (p + 1)⟩ :: after

section Endings
variable {p : ℕ}

theorem endsAt_here (hle : n ≤ p) (hlt : p < Text.byteLength text) :
    EndsAt text n p [.start n, .fault p] [] where
  le_place := by simpa [Mark.place] using hle
  fault := by simp
  least := by simp
  shown := by
    have hlast : ∀ m ∈ [Mark.start n, .fault p], m.place ≤ p := by simpa [Mark.place] using hle
    have hnext (h : n < p) : ∀ m ∈ [Mark.fault p], n < m.place := List.forall_mem_singleton.mpr h
    rcases hle.eq_or_lt with rfl | hn
    · rw [Span.shown_fault hlt (by simp) (by simp) (.inr (by simp)), Span.shown_past hlt hlast]
      rfl
    · rw [Span.shown_start le_rfl (hn.trans hlt) (hnext hn),
        Span.shown_next_fault hn hlt (by simp) (by simp) (by simp [Mark.place]),
        Span.shown_past hlt (List.forall_mem_cons.mp hlast).2]
      rfl

theorem endsAt_closed {opening : ℕ} (v : Wording) (hopening : n < opening)
    (hle : opening + Text.byteLength v.chars ≤ p) (hlt : p < Text.byteLength text) :
    EndsAt text n p (.start n :: v.marks opening ++ [.fault p]) [] := by
  have hlast : ∀ m ∈ [Mark.fault p], opening + Text.byteLength v.chars ≤ m.place :=
    List.forall_mem_singleton.mpr hle
  have hafter : ∀ m ∈ v.marks opening ++ [.fault p], n < m.place :=
    fun m hm => hopening.trans_le (Wording.le_place_append hlast m hm)
  constructor
  · exact List.forall_mem_cons.mpr ⟨le_rfl, fun m hm => (hafter m hm).le⟩
  · simp
  · simp [v.fault_notMem_marks]
  · rw [List.cons_append, Span.shown_start le_rfl (by omega) hafter,
      (Span.shown_wording _ _ v hopening (hle.trans hlt.le) hlast).1,
      Span.shown_next_fault hle hlt (by simp) (by simp) (by simp [Mark.place]),
      Span.shown_past hlt (by simp [Mark.place])]
    rfl

/-- A fault in the body of a compound directive ends the directive where the body starts. What is
marked after that is shown as if it did not belong to it. -/
theorem endsAt_inside {opened : Cursor} (hin : opened.In text) (hn : n + 1 < opened.place)
    (hlt : opened.placeOrLast < Text.byteLength text) :
    let inner := (readBody opened).marks
    EndsAt text n opened.placeOrLast (.start n :: inner ++ [.fault opened.placeOrLast])
      (Span.shown text inner (Text.boundaryFrom text (opened.placeOrLast + 1)) 0 0) := by
  have hwithin : ∀ m ∈ (readBody opened).marks,
      m.Within text opened.place (Text.byteLength text) := within_scan hin true 0 .outset
  obtain ⟨hlow, hhigh, -⟩ := hin.placeOrLast (by omega)
  -- The fault is marked last, but it stands before all marks of the body.
  have hle : opened.placeOrLast + 1 ≤ Text.boundaryFrom text (opened.placeOrLast + 1) :=
    (Text.boundaryFrom_spec hlt).1
  have hfrom : ∀ m ∈ (readBody opened).marks ++ [.fault opened.placeOrLast],
      opened.placeOrLast ≤ m.place := by
    rw [List.forall_mem_append, List.forall_mem_singleton]
    exact ⟨fun m hm => hhigh.trans (hwithin m hm).place.1, le_rfl⟩
  have hafter : ∀ m ∈ (readBody opened).marks ++ [.fault opened.placeOrLast], n < m.place := by
    intro m hm
    have := hfrom m hm
    omega
  have hstop : .stop opened.placeOrLast ∉
      (readBody opened).marks ++ [.fault opened.placeOrLast] := by
    intro hm
    have hinner : .stop opened.placeOrLast ∈ (readBody opened).marks := by simpa using hm
    exact hhigh.not_gt (hwithin _ hinner).1
  have hrest : ∀ m : Mark, Text.boundaryFrom text (opened.placeOrLast + 1) ≤ m.place →
      (m ∈ (readBody opened).marks ++ [.fault opened.placeOrLast] ↔
        m ∈ (readBody opened).marks) := by
    intro m hm
    rw [List.mem_append, List.mem_singleton, or_iff_left]
    rintro rfl
    exact hle.not_gt (Nat.lt_succ_of_le hm)
  constructor
  · exact List.forall_mem_cons.mpr ⟨le_rfl, fun m hm => (hafter m hm).le⟩
  · simp
  · exact fun m hm => hfrom (.fault m) (by simpa using hm)
  · rw [List.cons_append, Span.shown_start le_rfl (by omega) hafter,
      Span.shown_next_fault (by omega) hlt (by simp) hstop hfrom, Span.shown_congr hrest]
    rfl

end Endings

namespace FormatString
variable {s : String}

/-- A string that starts with a wording is shown up to its only fault: the outermost directives of
the wording, and one that ends with the character at which the fault shows. -/
def ShowsFault (f : FormatString) (w : Wording) : Prop :=
  ∃ place a, Text.byteLength w.chars ≤ place ∧ (∀ m, f.faultyAt m = true ↔ m = place) ∧
    Span.IsCharacter f.text place a ∧ f.faultSpan? = some a ∧
    f.spans = w.spans 0 ++ [⟨Text.byteLength w.chars, a.stop⟩]

/-- A string that starts with a wording is shown up to where the body of a compound directive is
opened, and what is left of the body is shown on its own, with the faults that it has. -/
def ShowsBody (f : FormatString) (w : Wording) (opened : Cursor) : Prop :=
  (∀ m, f.faultyAt m = true ↔ m = opened.placeOrLast ∨ .fault m ∈ (readBody opened).marks) ∧
    ∃ a, Span.IsCharacter f.text opened.placeOrLast a ∧ f.faultSpan? = some a ∧
      f.spans = w.spans 0 ++ ⟨Text.byteLength w.chars, a.stop⟩ ::
        Span.shown f.text (readBody opened).marks a.stop 0 0

/-- What the marks show that come after those of a wording. -/
theorem shown_after {w : Wording} {p : ℕ} {ms : List Mark} {after : List Span}
    (hmarks : marks s = w.marks 0 ++ ms)
    (hsize : Text.byteLength w.chars ≤ Text.byteLength s.toList)
    (h : EndsAt s.toList (Text.byteLength w.chars) p ms after) :
    (∀ m, (parse s).faultyAt m = true ↔ .fault m ∈ ms) ∧
    ∃ a, Span.IsCharacter s.toList p a ∧ (parse s).faultSpan? = some a ∧
      (parse s).spans = w.spans 0 ++ ⟨Text.byteLength w.chars, a.stop⟩ :: after := by
  have hfault : ∀ m, .fault m ∈ marks s ↔ .fault m ∈ ms := by
    intro m
    rw [hmarks, List.mem_append, or_iff_right (w.fault_notMem_marks 0 m)]
  have hshown := (Span.shown_wording s.toList ms w (Nat.le_refl 0)
    (by rwa [Nat.zero_add]) (by rw [Nat.zero_add]; exact h.le_place)).2
  obtain ⟨a, ha, hspan⟩ := exists_faultSpan (findIdx?_faulty ((hfault p).mpr h.fault)
    fun m hm => h.least m ((hfault m).mp hm))
  refine ⟨fun m => (faultyAt_iff s m).trans (hfault m), a, ha, hspan, ?_⟩
  rw [spans_eq, hmarks, hshown, Nat.zero_add, h.shown, ha.boundaryFrom]

theorem exists_refused (h : (parse s).result = .error fault) (hne : fault ≠ .conflictingUses) :
    ∃ (w : Wording) (rest : List Char) (ms : List Mark), s.toList = w.chars ++ '%' :: rest ∧
      marks s = w.marks 0 ++ ms ∧ Refused (Text.byteLength w.chars) rest fault ms := by
  have hread : ((Directives.ofText s.toList).read .outset).result = .error fault := by
    rw [parse, ofText] at h
    cases hread : ((Directives.ofText s.toList).read .outset).result with
    | error e =>
        simp only [hread] at h
        cases h
        rfl
    | ok f =>
        simp only [hread] at h
        cases h
  have hstart := Cursor.in_start s.toList
  obtain ⟨w, rest, ms, hs, hmarks, hrefused⟩ := refusedFrom_scan 0 ⟨0, s.toList⟩ rfl hstart
    (scan_between false 0 _ hstart).1 .outset hread hne
  rw [Nat.zero_add] at hrefused
  exact ⟨w, rest, ms, hs, hmarks, hrefused⟩

/-- A string that is refused for its syntax starts with a wording and goes on with a directive that
cannot be read. This is shown up to its only fault, unless the fault is passed on from the body of
a compound directive. -/
theorem spans_of_error (h : (parse s).result = .error fault) (hne : fault ≠ .conflictingUses) :
    ∃ (w : Wording) (rest : List Char), s.toList = w.chars ++ '%' :: rest ∧
      ((parse s).ShowsFault w ∨
        ∃ (o : Opening) (body : List Char), '%' :: rest = o.before '(' ++ body ∧
          (readBody (o.opened (Text.byteLength w.chars) body)).result = .error fault ∧
          (parse s).ShowsBody w (o.opened (Text.byteLength w.chars) body)) := by
  obtain ⟨w, rest, ms, hs, hmarks, hrefused⟩ := exists_refused h hne
  have hsize : Text.byteLength w.chars ≤ Text.byteLength s.toList := by
    rw [hs, Text.byteLength_append]
    exact Nat.le_add_right _ _
  have hwithin : ∀ m ∈ ms, m.place < Text.byteLength s.toList :=
    fun m hm => (within_marks s m (hmarks ▸ List.mem_append_right _ hm)).place.2
  refine ⟨w, rest, hs, ?_⟩
  cases hrefused with
  | @here p hle =>
      have hlt : p < Text.byteLength s.toList := hwithin (.fault p) (by simp)
      obtain ⟨hfaulty, a, ha⟩ := shown_after hmarks hsize (endsAt_here hle hlt)
      exact .inl ⟨p, a, hle, fun m => (hfaulty m).trans (by simp), ha⟩
  | @closed p opening v hopening hle =>
      have hlt : p < Text.byteLength s.toList := hwithin (.fault p) (by simp)
      obtain ⟨hfaulty, a, ha⟩ := shown_after hmarks hsize (endsAt_closed v hopening hle hlt)
      exact .inl ⟨p, a, by omega, fun m => (hfaulty m).trans (by simp [v.fault_notMem_marks]), ha⟩
  | @inside o body opened hrest hopened hbody =>
      have hlt : opened.placeOrLast < Text.byteLength s.toList :=
        hwithin (.fault opened.placeOrLast) (by simp)
      have hplace : opened.place = Text.byteLength (w.chars ++ o.before '(') := by
        rw [hopened, Text.byteLength_append]
        rfl
      have hin : opened.In s.toList :=
        ⟨w.chars ++ o.before '(', by rw [hs, hrest, hopened, List.append_assoc]; rfl, hplace⟩
      have hn : Text.byteLength w.chars + 1 < opened.place := by
        have := Wording.two_le_before o '('
        rw [hplace, Text.byteLength_append]
        omega
      obtain ⟨hfaulty, a, ha, hshown, hspans⟩ :=
        shown_after hmarks hsize (endsAt_inside hin hn hlt)
      rw [ha.boundaryFrom] at hspans
      subst hopened
      exact .inr ⟨o, body, hrest, hbody, fun m => (hfaulty m).trans (by simp [or_comm]), a, ha,
        hshown, hspans⟩

/-- A specifier that is not known, after a directive and plain text. -/
theorem spans_of_error_unknown :
    let s := "%d é %-é"
    (parse s).result = .error (.unknownSpecifier 2 'é') ∧ (parse s).spans = [⟨0, 2⟩, ⟨6, 10⟩] ∧
      ∃ (w : Wording) (rest : List Char), s.toList = w.chars ++ '%' :: rest ∧
        ((parse s).ShowsFault w ∨
          ∃ (o : Opening) (body : List Char), '%' :: rest = o.before '(' ++ body ∧
            (readBody (o.opened (Text.byteLength w.chars) body)).result =
              .error (.unknownSpecifier 2 'é') ∧
            (parse s).ShowsBody w (o.opened (Text.byteLength w.chars) body)) := by
  intro s
  have hparse : (parse s).result = .error (.unknownSpecifier 2 'é') := by decide +kernel
  exact ⟨hparse, by decide +kernel, spans_of_error hparse (by simp)⟩

/-- A fault in a compound directive shows twice, and a directive after it comes out on its own. -/
theorem not_showsFault_nested :
    let s := "%d %(%s %y"
    (parse s).result = .error (.unknownSpecifier 2 'y') ∧
      (parse s).spans = [⟨0, 2⟩, ⟨3, 6⟩, ⟨8, 10⟩] ∧ (parse s).faultSpan? = some ⟨5, 6⟩ ∧
      ¬ ∃ w, (parse s).ShowsFault w := by
  intro s
  refine ⟨by decide +kernel, by decide +kernel, by decide +kernel, ?_⟩
  rintro ⟨w, place, a, -, hfaulty, -⟩
  have hfirst : 5 = place := (hfaulty 5).mp (by decide +kernel)
  have hsecond : 9 = place := (hfaulty 9).mp (by decide +kernel)
  omega

end FormatString

end CatalogLint
