import CatalogLint.Proofs.Format.Place

/-!
# Directives in their text

Scanning notes where directives start and stop. They stand one after the other, those of a compound
directive within it (`scan_between`), and a level that starts with a wording starts with the
directives of that wording, from where they were written up to where they were
(`Wording.scan_append`).
-/
namespace CatalogLint

/-- Directives between two places of a text: one after the other, with starts and stops between two
characters, and the bodies of compound directives before the two characters that end them. -/
inductive Directives.Between (text : List Char) : ℕ → ℕ → Directives → Prop where
  | done {low high : ℕ} (hle : low ≤ high) : Between text low high .done
  | unclosed {low high : ℕ} (hle : low ≤ high) : Between text low high .unclosed
  | faulty {low high start place : ℕ} {fault : Fault} (hstart : low ≤ start)
      (boundary : Text.isBoundary text start = true) (hplace : start ≤ place)
      (hhigh : place < high) : Between text low high (.faulty start fault place)
  | value {low high start stop : ℕ} {head : Head} {kinds : Kinds} {rest : Directives}
      (hstart : low ≤ start) (boundary : Text.isBoundary text start = true)
      (hstop : start + 1 < stop) (boundary' : Text.isBoundary text stop = true)
      (hrest : Between text stop high rest) :
      Between text low high (.value start head kinds stop rest)
  | compound {low high start opening stop : ℕ} {head : Head} {body rest : Directives}
      (hstart : low ≤ start) (boundary : Text.isBoundary text start = true)
      (hopening : start < opening) (hbody : Between text opening (stop - 2) body)
      (boundary' : Text.isBoundary text stop = true) (hrest : Between text stop high rest) :
      Between text low high (.compound start head opening body stop rest)
  | broken {low high start opening : ℕ} {body : Directives} (hstart : low ≤ start)
      (boundary : Text.isBoundary text start = true) (hopening : start < opening)
      (hhigh : opening < high) (hbody : Between text opening high body) :
      Between text low high (.broken start opening body)

namespace Directives.Between
variable {text : List Char} {low low' high : ℕ} {d : Directives}

theorem le (h : d.Between text low high) : low ≤ high := by
  induction h with
  | done hle => exact hle
  | unclosed hle => exact hle
  | faulty hstart _ hplace hhigh => omega
  | value hstart _ hstop _ _ ih => omega
  | compound hstart _ hopening _ _ _ ihbody ih => omega
  | broken hstart _ hopening hhigh _ _ => omega

theorem mono (h : d.Between text low high) (hle : low' ≤ low) : d.Between text low' high := by
  cases h with
  | done h => exact .done (hle.trans h)
  | unclosed h => exact .unclosed (hle.trans h)
  | faulty hstart hb hplace hhigh => exact .faulty (hle.trans hstart) hb hplace hhigh
  | value hstart hb hstop hb' hrest => exact .value (hle.trans hstart) hb hstop hb' hrest
  | compound hstart hb hopening hbody hb' hrest =>
      exact .compound (hle.trans hstart) hb hopening hbody hb' hrest
  | broken hstart hb hopening hhigh hbody =>
      exact .broken (hle.trans hstart) hb hopening hhigh hbody

end Directives.Between

/-- The place where the directives of a level end: before the two characters that close it, or with
the text. -/
def levelEnd (text : List Char) : Option Cursor → ℕ
  | none => Text.byteLength text
  | some f => f.place - 2

namespace Cursor
variable {text rest : List Char} {c d : Cursor} {s : Char}

theorem In.lt (hc : c.In text) (hrest : c.rest = s :: rest) : c.place < Text.byteLength text := by
  have hadd := hc.place_add
  have hpos := Text.byteLength_cons_pos s rest
  rw [hrest] at hadd
  omega

/-- The body of a compound directive starts after its parenthesis, or the string ends there. -/
theorem In.placeOrLast (hc : c.In text) (hpos : 0 < c.place) :
    c.place - 1 ≤ c.placeOrLast ∧ c.placeOrLast ≤ c.place ∧
      c.placeOrLast < Text.byteLength text := by
  have hadd := hc.place_add
  rw [Cursor.placeOrLast]
  cases hrest : c.rest with
  | nil =>
      rw [hrest, Text.byteLength] at hadd
      simp only [List.isEmpty_nil, if_true]
      omega
  | cons x cs =>
      have := hc.lt hrest
      simp only [List.isEmpty_cons, Bool.false_eq_true, if_false]
      omega

/-- The specifier of the next directive, or the end of the string, comes after its `%`. -/
theorem In.directive {cs : List Char} {head : Head} {start k : ℕ} (hc : c.In text)
    (h₁ : Cursor.nextDirective? c.place c.rest = some (start, cs))
    (h₂ : CatalogLint.scanHead k ⟨start + 1, cs⟩ = .ok (head, d)) :
    c.place ≤ start ∧ Text.isBoundary text start = true ∧ d.In text ∧ start < d.place := by
  obtain ⟨hstart, hle⟩ := hc.nextDirective? h₁
  have hnext : In text ⟨start + 1, cs⟩ := hstart.cons
  obtain ⟨hd, hlt⟩ := hnext.scanHead h₂
  exact ⟨hle, hstart.isBoundary, hd, hlt⟩

/-- A specifier that is not known, or out of place. -/
theorem In.faultySpecifier {cs : List Char} {head : Head} {start k : ℕ} (hc : c.In text)
    (h₁ : Cursor.nextDirective? c.place c.rest = some (start, cs))
    (h₂ : CatalogLint.scanHead k ⟨start + 1, cs⟩ = .ok (head, d)) (h₃ : d.rest = s :: rest)
    (fault : Fault) :
    (Directives.faulty start fault d.place).Between text c.place (Text.byteLength text) := by
  obtain ⟨hle, hb, hd, hlt⟩ := hc.directive h₁ h₂
  exact .faulty hle hb hlt.le (hd.lt h₃)

end Cursor

/-- Scanning finds directives in their order, and a level ends between two characters. -/
theorem scan_between {text : List Char} (b : Bool) (k : ℕ) (c : Cursor) (hc : c.In text) :
    (scan b k c).directives.Between text c.place (levelEnd text (scan b k c).after) ∧
      ∀ f ∈ (scan b k c).after, f.In text := by
  have hnone : ∀ f ∈ (none : Option Cursor), f.In text :=
    fun f hf => absurd hf (Option.not_mem_none f)
  fun_induction scan b k c with
  | case1 b count c h₁ =>
      have hle : c.place ≤ Text.byteLength text := Nat.le.intro hc.place_add
      refine ⟨?_, hnone⟩
      cases b with
      | true => exact .unclosed hle
      | false => exact .done hle
  | case2 b count c start cs h₁ f h₂ =>
      obtain ⟨hstart, hle⟩ := hc.nextDirective? h₁
      have hplace := (h₂ ▸ Cursor.scanHead_onward (count + 1) ⟨start + 1, cs⟩).place
      have hbound : start + 1 + Text.byteLength cs = Text.byteLength text := hstart.cons.place_add
      rw [Cursor.bound, hbound] at hplace
      exact ⟨.faulty hle hstart.isBoundary (by dsimp only at hplace; omega) hplace.2, hnone⟩
  | case3 b count c start cs h₁ head d h₂ hrest =>
      obtain ⟨hle, hb, hd, hlt⟩ := hc.directive h₁ h₂
      have hplace : d.place - 1 < Text.byteLength text := by
        have := hd.place_add
        omega
      exact ⟨.faulty hle hb (by omega) hplace, hnone⟩
  | case4 b count c start cs h₁ head d h₂ s rest h₃ e he kinds hk r ih =>
      obtain ⟨hle, hb, hd, hlt⟩ := hc.directive h₁ h₂
      have hin : e.In text := hd.next h₃
      have hplace : d.place < e.place := Nat.lt_add_of_pos_right s.utf8Size_pos
      obtain ⟨hrest, hafter⟩ := ih hin
      exact ⟨.value hle hb (by omega) hin.isBoundary hrest, hafter⟩
  | case5 b count c start cs h₁ head d h₂ rest h₃ e he hs body h₄ ihbody =>
      obtain ⟨hle, hb, hd, hlt⟩ := hc.directive h₁ h₂
      have hin : e.In text := hd.next h₃
      have hplace : e.place = d.place + 1 := rfl
      obtain ⟨hlow, hhigh, hend⟩ := hin.placeOrLast (by omega)
      obtain ⟨hbody, -⟩ := ihbody hin
      rw [show (scan true 0 e).after = none from h₄] at hbody
      exact ⟨.broken hle hb (by omega) hend (hbody.mono hhigh), hnone⟩
  | case6 b count c start cs h₁ head d h₂ rest f r h₃ e he hs body h₄ hf ihbody _ ih =>
      obtain ⟨hle, hb, hd, hlt⟩ := hc.directive h₁ h₂
      have hin : e.In text := hd.next h₃
      have hplace : e.place = d.place + 1 := rfl
      obtain ⟨hlow, hhigh, -⟩ := hin.placeOrLast (by omega)
      obtain ⟨hbody, hafter⟩ := ihbody hin
      have hf : f.In text := hafter f h₄
      rw [show (scan true 0 e).after = some f from h₄] at hbody
      obtain ⟨hrest, hend⟩ := ih hf
      exact ⟨.compound hle hb (by omega) (hbody.mono hhigh) hf.isBoundary hrest, hend⟩
  | case7 count c start cs h₁ head d h₂ rest h₃ e he hs hne =>
      obtain ⟨hle, hb, hd, hlt⟩ := hc.directive h₁ h₂
      have hin : e.In text := hd.next h₃
      have hplace : e.place = d.place + 1 := rfl
      exact ⟨.done (show c.place ≤ e.place - 2 by omega), by
        rintro _ ⟨⟩
        exact hin⟩
  | case8 b count c start cs h₁ head d h₂ rest _ h₃ =>
      exact ⟨hc.faultySpecifier h₁ h₂ h₃ _, hnone⟩
  | case9 count c start cs h₁ head d h₂ rest f h₃ e he hs hopen hclose h₅ =>
      obtain ⟨hle, hb, hd, hlt⟩ := hc.directive h₁ h₂
      have hin : e.In text := hd.next h₃
      have hplace : e.place = d.place + 1 := rfl
      obtain ⟨hlow, hhigh⟩ := Cursor.place_of_scanDelimiter (by omega) h₅
      rw [hin.place_add] at hhigh
      exact ⟨.faulty hle hb (by omega) hhigh, hnone⟩
  | case10 count c start cs h₁ head d h₂ rest f h₃ e he hs hopen hclose h₅ =>
      obtain ⟨hle, hb, hd, hlt⟩ := hc.directive h₁ h₂
      have hin : e.In text := hd.next h₃
      have hplace : e.place = d.place + 1 := rfl
      obtain ⟨hf, hlast⟩ := hin.scanDelimiter h₅
      exact ⟨.done (show c.place ≤ f.place - 2 by omega), by
        rintro _ ⟨⟩
        exact hf⟩
  | case11 b count c start cs h₁ head d h₂ rest _ h₃ =>
      exact ⟨hc.faultySpecifier h₁ h₂ h₃ _, hnone⟩
  | case12 b count c start cs h₁ head d h₂ s rest h₃ =>
      exact ⟨hc.faultySpecifier h₁ h₂ h₃ _, hnone⟩

/-! ### The directives of a wording -/

namespace Opening

/-- A directive up to its specifier. -/
def before (o : Opening) (s : Char) : List Char :=
  '%' :: o.text ++ [s]

end Opening

namespace Wording

/-- A compound directive, up to the parenthesis that closes it. -/
def compoundText (o : Opening) (body : Wording) (closing : Closing) : List Char :=
  o.before '(' ++ body.chars ++ closing.text

/-- The outermost directives as they are written. -/
def pieces : Wording → List (List Char)
  | .done => []
  | .text _ rest => rest.pieces
  | .value o s rest => o.before s.letter :: rest.pieces
  | .compound o body closing rest => compoundText o body closing :: rest.pieces

/-- Where the outermost directives of a wording are that is written from a place on. -/
def spans : Wording → ℕ → List Span
  | .done, _ => []
  | .text c rest, n => rest.spans (n + Text.byteLength (escape c))
  | .value o s rest, n =>
      let stop := n + Text.byteLength (o.before s.letter)
      ⟨n, stop⟩ :: rest.spans stop
  | .compound o body closing rest, n =>
      let stop := n + Text.byteLength (compoundText o body closing)
      ⟨n, stop⟩ :: rest.spans stop

/-- The marks on a wording that is written from a place on. -/
def marks : Wording → ℕ → List Mark
  | .done, _ => []
  | .text c rest, n => rest.marks (n + Text.byteLength (escape c))
  | .value o s rest, n =>
      let stop := n + Text.byteLength (o.before s.letter)
      .start n :: .stop (stop - 1) :: rest.marks stop
  | .compound o body closing rest, n =>
      let opening := n + Text.byteLength (o.before '(')
      let stop := n + Text.byteLength (compoundText o body closing)
      .start n :: (body.marks opening ++ .stop (stop - 1) :: rest.marks stop)

/-- The directives of a wording that is written from a place on, and those that follow it. -/
def directives : Wording → ℕ → Directives → Directives
  | .done, _, following => following
  | .text c rest, n, following => rest.directives (n + Text.byteLength (escape c)) following
  | .value o s rest, n, following =>
      let stop := n + Text.byteLength (o.before s.letter)
      .value n o.head s.kinds stop (rest.directives stop following)
  | .compound o body closing rest, n, following =>
      let opening := n + Text.byteLength (o.before '(')
      let stop := n + Text.byteLength (compoundText o body closing)
      .compound n o.head opening (body.directives opening .done) stop
        (rest.directives stop following)

variable {o : Opening} {s : Specifier} {body rest : Wording} {closing : Closing}

theorem chars_value : (value o s rest).chars = o.before s.letter ++ rest.chars := by
  simp [chars, Opening.before]

theorem chars_compound :
    (compound o body closing rest).chars = compoundText o body closing ++ rest.chars := by
  simp [chars, compoundText, Opening.before]

theorem two_le_before (o : Opening) (s : Char) : 2 ≤ Text.byteLength (o.before s) := by
  have hpos := Text.byteLength_cons_pos s []
  rw [Opening.before, List.cons_append, Text.byteLength_percent, Text.byteLength_append]
  omega

theorem two_le_closing (closing : Closing) : 2 ≤ Text.byteLength closing.text := by
  have hlast : ∃ front, closing.text = '%' :: (front ++ [')']) := by
    obtain ⟨o, delimiter⟩ := closing
    cases delimiter with
    | none => exact ⟨o.text, rfl⟩
    | some delimiter =>
        exact ⟨o.text ++ '|' :: (delimiter.flatMap escape ++ ['%']), by simp [Closing.text]⟩
  obtain ⟨front, hfront⟩ := hlast
  have hpos := Text.byteLength_cons_pos ')' []
  rw [hfront, Text.byteLength_percent, Text.byteLength_append]
  omega

/-- A compound directive has its parts one after the other. -/
theorem place_compoundText (o : Opening) (body : Wording) (closing : Closing) (n : ℕ) :
    n + Text.byteLength (compoundText o body closing) =
      n + Text.byteLength (o.before '(') + Text.byteLength body.chars +
        Text.byteLength closing.text := by
  simp only [compoundText, Text.byteLength_append, Nat.add_assoc]

theorem place_of_mem_marks {w : Wording} {n : ℕ} {m : Mark} (hm : m ∈ w.marks n) :
    n ≤ m.place ∧ m.place < n + Text.byteLength w.chars := by
  induction w generalizing n with
  | done => cases hm
  | text c rest ih =>
      rw [chars, Text.byteLength_append]
      have := ih hm
      omega
  | value o s rest ih =>
      have hlen := two_le_before o s.letter
      rw [chars_value, Text.byteLength_append]
      rcases List.mem_cons.mp hm with rfl | hm
      · simp only [Mark.place]
        omega
      rcases List.mem_cons.mp hm with rfl | hm
      · simp only [Mark.place]
        omega
      · have := ih hm
        omega
  | compound o body closing rest ihbody ih =>
      have hlen := two_le_before o '('
      have hclosing := two_le_closing closing
      have hstop := place_compoundText o body closing n
      rw [chars_compound, Text.byteLength_append]
      rcases List.mem_cons.mp hm with rfl | hm
      · simp only [Mark.place]
        omega
      rcases List.mem_append.mp hm with hm | hm
      · have := ihbody hm
        omega
      rcases List.mem_cons.mp hm with rfl | hm
      · simp only [Mark.place]
        omega
      · have := ih hm
        omega

/-- The marks of a wording and of what follows it are from its place on. -/
theorem le_place_append {w : Wording} {n : ℕ} {marks : List Mark}
    (h : ∀ m ∈ marks, n + Text.byteLength w.chars ≤ m.place) :
    ∀ m ∈ w.marks n ++ marks, n ≤ m.place := by
  intro m hm
  rcases List.mem_append.mp hm with hm | hm
  · exact (place_of_mem_marks hm).1
  · exact (Nat.le_add_right _ _).trans (h m hm)

end Wording

section Writing
variable {b : Bool} {k n : ℕ} {s : Char} {text w : List Char}

/-- A directive is scanned up to its specifier. -/
theorem scan_before (o : Opening) (hs : isFinal s = true)
    (hin : Cursor.In text ⟨n, o.before s ++ w⟩) :
    ((scan b k ⟨n, o.before s ++ w⟩).directives, (scan b k ⟨n, o.before s ++ w⟩).after) =
      scanSpecifier b k n o.head (n + 1 + Text.byteLength o.text) (s :: w) := by
  have htext : o.before s ++ w = '%' :: o.text ++ s :: w := by simp [Opening.before]
  rw [htext] at hin ⊢
  obtain ⟨m, hm⟩ := scanHead_text (k := k + 1) (n := n + 1) (o := o) (w := w) hs
  have hnext : Cursor.In text ⟨n + 1, o.text ++ s :: w⟩ := hin.cons
  obtain ⟨hd, -⟩ := hnext.scanHead hm
  have hplace : m = n + 1 + Text.byteLength o.text := hnext.place_eq hd rfl
  rw [scan_eq, List.cons_append, nextDirective?_percent (ne_percent hs), scanFrom, hm, hplace]
  rfl

theorem after_scan_nil : (scan b k ⟨n, []⟩).after = none := by
  rw [after_scan]
  rfl

theorem Opening.place_before (o : Opening) (s : Char) (n : ℕ) :
    n + 1 + Text.byteLength o.text + s.utf8Size = n + Text.byteLength (o.before s) := by
  rw [before, List.cons_append, Text.byteLength_percent, Text.byteLength_append]
  rw [Text.byteLength, Text.byteLength]
  omega

theorem scan_value (o : Opening) (s : Specifier)
    (hin : Cursor.In text ⟨n, o.before s.letter ++ w⟩) :
    let stop := n + Text.byteLength (o.before s.letter)
    let rest := scan b (k + 1) ⟨stop, w⟩
    ((scan b k ⟨n, o.before s.letter ++ w⟩).directives,
      (scan b k ⟨n, o.before s.letter ++ w⟩).after) =
        (.value n o.head s.kinds stop rest.directives, rest.after) := by
  rw [scan_before o (isFinal_of_specifierKinds s.known) hin, scanSpecifier, o.place_before]
  simp only [s.known]

/-- A compound directive goes on after its body, if the body comes to its end. -/
theorem scan_compound (o : Opening) (hin : Cursor.In text ⟨n, o.before '(' ++ w⟩) :
    let opened : Cursor := ⟨n + Text.byteLength (o.before '('), w⟩
    let body := scan true 0 opened
    ((scan b k ⟨n, o.before '(' ++ w⟩).directives, (scan b k ⟨n, o.before '(' ++ w⟩).after) =
      match body.after with
      | none => (.broken n opened.placeOrLast body.directives, none)
      | some f =>
          let rest := scan b (k + 1) f
          (.compound n o.head opened.placeOrLast body.directives f.place rest.directives,
            rest.after) := by
  rw [scan_before o (by decide) hin, scanSpecifier, o.place_before]
  rfl

/-- A compound directive whose body comes to its end. -/
theorem scan_closed {body : Directives} {f : Cursor} (o : Opening)
    (hin : Cursor.In text ⟨n, o.before '(' ++ w⟩)
    (hbody : (scan true 0 ⟨n + Text.byteLength (o.before '('), w⟩).directives = body)
    (hafter : (scan true 0 ⟨n + Text.byteLength (o.before '('), w⟩).after = some f) :
    let rest := scan b (k + 1) f
    ((scan b k ⟨n, o.before '(' ++ w⟩).directives, (scan b k ⟨n, o.before '(' ++ w⟩).after) =
      (.compound n o.head (n + Text.byteLength (o.before '(')) body f.place rest.directives,
        rest.after) := by
  have hopening : Cursor.placeOrLast ⟨n + Text.byteLength (o.before '('), w⟩ =
      n + Text.byteLength (o.before '(') := by
    cases w with
    | nil =>
        rw [after_scan_nil] at hafter
        cases hafter
    | cons c w => rfl
  rw [scan_compound o hin, hopening, hbody]
  simp only [hafter]

/-- The end of a compound directive, and where it leads. -/
theorem scan_closing (closing : Closing) (hin : Cursor.In text ⟨n, closing.text ++ w⟩) :
    ((scan true k ⟨n, closing.text ++ w⟩).directives,
      (scan true k ⟨n, closing.text ++ w⟩).after) =
        (.done, some ⟨n + Text.byteLength closing.text, w⟩) := by
  obtain ⟨hdone, hafter⟩ := ends_closing closing w k n
  obtain ⟨⟨place, rest⟩, hf, hrest⟩ := Option.map_eq_some_iff.mp hafter
  obtain rfl : rest = w := hrest
  have hlast := (scan_between true k _ hin).2 _ hf
  have hplace : place = n + Text.byteLength closing.text := hin.place_eq hlast rfl
  rw [hdone, hf, hplace]

/-- The body of a compound directive comes to its end with the closing, if it is a wording that is
scanned as it is written. -/
theorem Wording.scan_body {v : Wording} {closing : Closing}
    (hin : Cursor.In text ⟨n, v.chars ++ (closing.text ++ w)⟩)
    (hscan : let body := scan true 0 ⟨n, v.chars ++ (closing.text ++ w)⟩
      let following := scan true (0 + v.pieces.length)
        ⟨n + Text.byteLength v.chars, closing.text ++ w⟩
      (body.directives, body.after) = (v.directives n following.directives, following.after)) :
    let body := scan true 0 ⟨n, v.chars ++ (closing.text ++ w)⟩
    body.directives = v.directives n .done ∧
      body.after = some ⟨n + Text.byteLength v.chars + Text.byteLength closing.text, w⟩ := by
  have hclosing : Cursor.In text ⟨n + Text.byteLength v.chars, closing.text ++ w⟩ :=
    hin.append rfl
  obtain ⟨hdirectives, hafter⟩ := Prod.mk.inj hscan
  obtain ⟨hdone, hclosed⟩ :=
    Prod.mk.inj (scan_closing (k := 0 + v.pieces.length) closing hclosing)
  exact ⟨by rw [hdirectives, hdone], by rw [hafter, hclosed]⟩

/-- A level that starts with a wording starts with its directives, as they are written. -/
theorem Wording.scan_append (f : Wording) (tail : List Char)
    (hin : Cursor.In text ⟨n, f.chars ++ tail⟩) :
    let following := scan b (k + f.pieces.length) ⟨n + Text.byteLength f.chars, tail⟩
    ((scan b k ⟨n, f.chars ++ tail⟩).directives, (scan b k ⟨n, f.chars ++ tail⟩).after) =
      (f.directives n following.directives, following.after) := by
  induction f generalizing b k n tail with
  | done => rfl
  | text c rest ih =>
      have htext : (Wording.text c rest).chars ++ tail = escape c ++ (rest.chars ++ tail) := by
        simp [chars]
      rw [htext] at hin ⊢
      have hrest := ih (b := b) (k := k) tail
        (hin.append (d := ⟨n + Text.byteLength (escape c), rest.chars ++ tail⟩) rfl)
      rw [scan_eq, nextDirective?_escape, ← scan_eq b k ⟨_, rest.chars ++ tail⟩, hrest]
      rw [chars, Text.byteLength_append, ← Nat.add_assoc]
      rfl
  | value o s rest ih =>
      rw [chars_value, List.append_assoc] at hin ⊢
      have hrest := ih (b := b) (k := k + 1) tail (hin.append rfl)
      obtain ⟨hdirectives, hafter⟩ := Prod.mk.inj hrest
      have hcount : k + (value o s rest).pieces.length = k + 1 + rest.pieces.length := by
        rw [pieces, List.length_cons]
        omega
      rw [scan_value o s hin, hdirectives, hafter, hcount, Text.byteLength_append, ← Nat.add_assoc]
      rfl
  | compound o body closing rest ihbody ih =>
      let opening := n + Text.byteLength (o.before '(')
      let stop := n + Text.byteLength (compoundText o body closing)
      have htext : (compound o body closing rest).chars ++ tail =
          o.before '(' ++ (body.chars ++ (closing.text ++ (rest.chars ++ tail))) := by
        rw [chars_compound]
        simp [compoundText]
      have hstop : opening + Text.byteLength body.chars + Text.byteLength closing.text = stop :=
        (place_compoundText o body closing n).symm
      have hcount : k + (compound o body closing rest).pieces.length =
          k + 1 + rest.pieces.length := by
        rw [pieces, List.length_cons]
        omega
      rw [htext] at hin ⊢
      have hopened : Cursor.In text
          ⟨opening, body.chars ++ (closing.text ++ (rest.chars ++ tail))⟩ := hin.append rfl
      obtain ⟨hbody, hafter⟩ := scan_body hopened (ihbody (b := true) (k := 0) _ hopened)
      rw [hstop] at hafter
      have hrest := ih (b := b) (k := k + 1) (n := stop) tail
        ((hopened.append rfl).append hstop.symm)
      obtain ⟨hdirectives, hlast⟩ := Prod.mk.inj hrest
      rw [scan_closed o hin hbody hafter, hdirectives, hlast, hcount, chars_compound,
        Text.byteLength_append, ← Nat.add_assoc]
      rfl

/-- The directives of a wording are found where they are written. -/
theorem Wording.directives_ofText (w : Wording) :
    Directives.ofText w.chars = w.directives 0 .done := by
  have hin : Cursor.In w.chars ⟨0, w.chars ++ []⟩ := by
    rw [List.append_nil]
    exact Cursor.in_start w.chars
  have hdone : (scan false w.pieces.length ⟨0 + Text.byteLength w.chars, []⟩).directives =
      .done := by
    rw [directives_scan]
    rfl
  have hscan := congrArg Prod.fst (w.scan_append (b := false) (k := 0) [] hin)
  simp only [Nat.zero_add] at hscan hdone
  rwa [List.append_nil, hdone] at hscan

end Writing

end CatalogLint
