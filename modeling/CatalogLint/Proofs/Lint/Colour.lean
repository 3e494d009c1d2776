import CatalogLint.Charset.Known
import CatalogLint.Lint.Check
import CatalogLint.Lint.Terminal
import CatalogLint.Proofs.Lint.Painting
import CatalogLint.Proofs.Text.Split

/-!
# Displays with colours

Without its colour sequences, a display in colour is the plain one, whatever sequences text is
painted with (`Painting.Lawful`, `Diagnostic.strip_display`). The exception is a highlight that
starts or ends inside a line break or behind the last one: lines are told apart once the text is
painted, so the colour sequence there keeps a carriage return or adds a line.
-/
namespace CatalogLint

namespace Style

def isCode (c : Char) : Bool :=
  c.isDigit || c = ';'

/-- What follows codes and the letter that ends them. -/
def afterCodes? : List Char → Option (List Char)
  | [] => none
  | c :: cs => if c = 'm' then some cs else if isCode c then afterCodes? cs else none

/-- Codes that the terminal takes as a command, between what opens and what closes them. -/
def IsSequence (s : List Char) : Prop :=
  ∃ codes, (∀ d ∈ codes, isCode d = true) ∧ s = '\x1b' :: '[' :: (codes ++ ['m'])

/-- What follows the colour sequence at the start of a text. -/
def afterSequence? : List Char → Option (List Char)
  | '\x1b' :: '[' :: cs => afterCodes? cs
  | _ => none

variable {c : Char} {cs ds rest t u p q s : List Char}

theorem length_afterCodes (h : afterCodes? cs = some rest) : rest.length < cs.length := by
  fun_induction afterCodes? cs with
  | case1 => cases h
  | case2 cs =>
      cases h
      exact Nat.lt_succ_self _
  | case3 c cs _ _ ih => exact Nat.lt_succ_of_lt (ih h)
  | case4 => cases h

theorem length_afterSequence (h : afterSequence? cs = some rest) : rest.length < cs.length := by
  unfold afterSequence? at h
  split at h
  · have := length_afterCodes h
    simp only [List.length_cons]
    omega
  · cases h

theorem IsSequence.ne_nil (h : IsSequence s) : s ≠ [] := by
  obtain ⟨ds, -, rfl⟩ := h
  exact List.cons_ne_nil _ _

/-- A text without its colour sequences. -/
def strip (cs : List Char) : List Char :=
  match cs with
  | [] => []
  | c :: cs =>
      match _h : afterSequence? (c :: cs) with
      | some rest => strip rest
      | none => c :: strip cs
  termination_by cs.length
  decreasing_by
    · exact length_afterSequence _h
    · exact Nat.lt_succ_self _

theorem strip_cons (h : c ≠ '\x1b') (cs : List Char) : strip (c :: cs) = c :: strip cs := by
  have hnone : afterSequence? (c :: cs) = none := by
    unfold afterSequence?
    split
    · rename_i heq
      cases heq
      exact absurd rfl h
    · rfl
  rw [strip]
  split
  · rename_i hsome
    rw [hnone] at hsome
    cases hsome
  · rfl

theorem afterCodes?_append (h : ∀ d ∈ ds, isCode d = true) (cs : List Char) :
    afterCodes? (ds ++ 'm' :: cs) = some cs := by
  induction ds with
  | nil => rfl
  | cons d ds ih =>
      obtain ⟨hd, hds⟩ := List.forall_mem_cons.mp h
      have hne : d ≠ 'm' := by
        rintro rfl
        revert hd
        decide
      rw [List.cons_append, afterCodes?, if_neg hne, if_pos hd, ih hds]

theorem strip_sequence (h : ∀ d ∈ ds, isCode d = true) (cs : List Char) :
    strip ('\x1b' :: '[' :: (ds ++ 'm' :: cs)) = strip cs := by
  have hsome : afterSequence? ('\x1b' :: '[' :: (ds ++ 'm' :: cs)) = some cs :=
    afterCodes?_append h cs
  rw [strip]
  split
  · rename_i h
    rw [hsome] at h
    cases h
    rfl
  · rename_i h
    rw [hsome] at h
    cases h

/-! ### What a text shows -/

/-- The text shows what is left of it without its colour sequences, whatever follows it. -/
def Shows (p t : List Char) : Prop :=
  ∀ cs, strip (p ++ cs) = t ++ strip cs

namespace Shows

theorem strip_eq (h : Shows p t) : strip p = t := by
  have := h []
  rwa [List.append_nil, strip, List.append_nil] at this

theorem append (hp : Shows p t) (hq : Shows q u) : Shows (p ++ q) (t ++ u) := fun cs => by
  rw [List.append_assoc, hp, hq, List.append_assoc]

theorem nil : Shows [] [] := fun _ => rfl

theorem plain (h : '\x1b' ∉ t) : Shows t t := fun cs => by
  induction t with
  | nil => rfl
  | cons c t ih =>
      rw [List.mem_cons, not_or] at h
      rw [List.cons_append, strip_cons (Ne.symm h.1), ih h.2, List.cons_append]

theorem sequence (h : IsSequence s) : Shows s [] := fun cs => by
  obtain ⟨ds, hds, rfl⟩ := h
  rw [List.cons_append, List.cons_append, List.append_assoc]
  exact strip_sequence hds cs

end Shows

/-- The text shows all of another one, and shows nothing else exactly if a condition holds. -/
def ShowsJust (cond : Prop) (p t : List Char) : Prop :=
  ∃ u, Shows p u ∧ t.Sublist u ∧ (u = t ↔ cond)

namespace ShowsJust
variable {a b : Prop}

theorem of_shows (h : Shows p t) : ShowsJust True p t :=
  ⟨t, h, .refl t, by simp⟩

theorem append (hp : ShowsJust a p t) (hq : ShowsJust b q u) :
    ShowsJust (a ∧ b) (p ++ q) (t ++ u) := by
  obtain ⟨t', hp, ht, ha⟩ := hp
  obtain ⟨u', hq, hu, hb⟩ := hq
  refine ⟨t' ++ u', hp.append hq, ht.append hu, ?_⟩
  rw [← ha, ← hb]
  refine ⟨fun h => ?_, fun ⟨ht, hu⟩ => by rw [ht, hu]⟩
  have hlength := congrArg List.length h
  rw [List.length_append, List.length_append] at hlength
  have hle := ht.length_le
  have hle' := hu.length_le
  have heq := ht.eq_of_length (by omega)
  have heq' := hu.eq_of_length (by omega)
  exact ⟨heq.symm, heq'.symm⟩

theorem congr (h : ShowsJust a p t) (hab : a ↔ b) : ShowsJust b p t := by
  rwa [propext hab] at h

theorem prepend (hq : Shows q u) (hp : ShowsJust a p t) : ShowsJust a (q ++ p) (u ++ t) :=
  ((of_shows hq).append hp).congr (iff_of_eq (true_and a))

theorem of_nil (h : Shows p t) : ShowsJust (t = []) p [] :=
  ⟨t, h, List.nil_sublist t, Iff.rfl⟩

/-- A text that shows one more character does not show just the same. -/
theorem more (hc : c ≠ '\x1b') (h : ShowsJust a p t) : ShowsJust False (c :: p) t := by
  obtain ⟨u, hp, ht, -⟩ := h
  refine ⟨c :: u, fun cs => ?_, ht.cons c, ?_⟩
  · rw [List.cons_append, strip_cons hc, hp, List.cons_append]
  · refine iff_false_intro fun h => ?_
    have hlength := ht.length_le
    rw [← h, List.length_cons] at hlength
    omega

end ShowsJust

/-- Of the marks nothing is left without colour sequences, and no line ends in them. -/
structure Invisible (m : List Char) : Prop where
  shows : Shows m []
  unbroken : ∀ c ∈ m, c ≠ '\n' ∧ c ≠ '\r'

namespace Invisible

theorem nil : Invisible [] :=
  ⟨.nil, List.forall_mem_nil _⟩

theorem append (hp : Invisible p) (hq : Invisible q) : Invisible (p ++ q) :=
  ⟨hp.shows.append hq.shows, fun c hc =>
    (List.mem_append.mp hc).elim (hp.unbroken c) (hq.unbroken c)⟩

theorem sequence (h : IsSequence s) : Invisible s where
  shows := .sequence h
  unbroken c hc := by
    obtain ⟨ds, hds, rfl⟩ := h
    have hcode : c = '\x1b' ∨ c = '[' ∨ isCode c = true ∨ c = 'm' := by
      simp only [List.mem_cons, List.mem_append, List.not_mem_nil, or_false] at hc
      exact hc.imp_right (.imp_right (.imp_left (hds c)))
    constructor <;> rintro rfl <;> revert hcode <;> decide

theorem showsJust {a : Prop} (hq : Invisible q) (hp : ShowsJust a p t) : ShowsJust a (q ++ p) t :=
  hp.prepend hq.shows

theorem marks {on off : List Char} (hon : Invisible on) (hoff : Invisible off) (spans : List Span)
    (n : ℕ) : Invisible (DiagnosticLine.marks on off spans n) := by
  induction spans with
  | nil => exact nil
  | cons a spans ih =>
      refine append (append ?_ ?_) ih
      · split
        · exact hon
        · exact nil
      · split
        · exact hoff
        · exact nil

end Invisible

end Style

/-- What is assumed of a painting: without colours text stays as it is, and with colours it stands
between two sequences that depend on its style alone, if it has no sequences of its own. -/
structure Painting.Lawful [Painting] : Prop where
  plain (s : Style) (t : List Char) : paint false s t = t
  framed (s : Style) : ∃ on off, Style.IsSequence on ∧ Style.IsSequence off ∧
    ∀ t, '\x1b' ∉ t → paint true s t = on ++ (t ++ off)

theorem Painting.Lawful.shows [Painting] (hp : Painting.Lawful) {t : List Char}
    (h : '\x1b' ∉ t) (s : Style) : Style.Shows (paint true s t) (paint false s t) := by
  obtain ⟨on, off, hon, hoff, hframed⟩ := hp.framed s
  have hshows := (Style.Shows.sequence hon).append ((Style.Shows.plain h).append (.sequence hoff))
  rw [List.nil_append, List.append_nil] at hshows
  rw [hp.plain, hframed t h]
  exact hshows

namespace Terminal

/-- Text that switches nothing off is painted as it is. -/
theorem reopen_eq {t : List Char} (h : '\x1b' ∉ t) (on : List Char) : reopen on t = t := by
  induction t with
  | nil => rfl
  | cons c t ih =>
      rw [List.mem_cons, not_or] at h
      rw [reopen, ih h.2]
      rintro cs rfl -
      exact h.1 rfl

theorem lawful : Painting.Lawful where
  plain s t := rfl
  framed s := by
    refine ⟨switchOn s, switchOff, ⟨codes s, ?_, rfl⟩, ⟨['0'], ?_, rfl⟩, fun t h => ?_⟩
    · exact List.all_eq_true.mp (by cases s <;> decide)
    · exact List.all_eq_true.mp (by decide)
    · change switchOn s ++ reopen (switchOn s) t ++ switchOff = _
      rw [reopen_eq h, List.append_assoc]

end Terminal

namespace Text

/-- The lines of a text in order, each of them but the first behind a margin. -/
def laidOut (margin cs : List Char) : List Char :=
  match lines cs with
  | [] => []
  | line :: more => line ++ more.flatMap fun m => '\n' :: margin ++ m

/-- The places of a text, which starts at a place, where a line does not end yet or where none
starts any more: inside a line break of two characters, and behind a line break at the end. -/
def breakPlaces (n : ℕ) : List Char → List ℕ
  | [] => []
  | c :: cs =>
      let next := n + c.utf8Size
      if c = '\r' ∧ cs.head? = some '\n' ∨ c = '\n' ∧ cs = [] then next :: breakPlaces next cs
      else breakPlaces next cs

variable {c : Char} {cs : List Char} (margin : List Char)

theorem lines_eq_nil_iff : lines cs = [] ↔ cs = [] := by
  fun_cases lines cs <;> simp

theorem laidOut_cons (hfeed : c ≠ '\n') (hreturn : ¬(c = '\r' ∧ cs.head? = some '\n')) :
    laidOut margin (c :: cs) = c :: laidOut margin cs := by
  rw [laidOut, lines, laidOut]
  · cases lines cs <;> rfl
  · exact hfeed
  · rintro cs rfl rfl
    exact hreturn ⟨rfl, rfl⟩

theorem laidOut_lineFeed (h : cs ≠ []) :
    laidOut margin ('\n' :: cs) = '\n' :: margin ++ laidOut margin cs := by
  rw [laidOut, lines, laidOut]
  cases hlines : lines cs with
  | nil => exact absurd (lines_eq_nil_iff.mp hlines) h
  | cons line more => simp

theorem laidOut_return (cs : List Char) :
    laidOut margin ('\r' :: '\n' :: cs) = laidOut margin ('\n' :: cs) := by
  rw [laidOut, laidOut, lines, lines]

theorem laidOut_append {m : List Char} (h : ∀ c ∈ m, c ≠ '\n' ∧ c ≠ '\r') (cs : List Char) :
    laidOut margin (m ++ cs) = m ++ laidOut margin cs := by
  induction m with
  | nil => rfl
  | cons c m ih =>
      obtain ⟨⟨hfeed, hreturn⟩, hm⟩ := List.forall_mem_cons.mp h
      rw [List.cons_append, laidOut_cons margin hfeed fun h => hreturn h.1, ih hm,
        List.cons_append]

theorem laidOut_eq_self {m : List Char} (h : ∀ c ∈ m, c ≠ '\n' ∧ c ≠ '\r') :
    laidOut margin m = m := by
  have happend := laidOut_append margin h []
  rw [List.append_nil] at happend
  exact happend.trans (List.append_nil m)

end Text

namespace DiagnosticLine
open Style Text

section LaidOut
variable {m : ℕ → List Char} {margin margin' : List Char}

theorem head?_withMarks (hm : ∀ n, Invisible (m n)) {n : ℕ} {cs : List Char}
    (h : m n ≠ [] ∨ cs.head? ≠ some '\n') : (withMarks m n cs).head? ≠ some '\n' := by
  have hmark := (hm n).unbroken
  cases hn : m n with
  | nil =>
      cases cs with
      | nil => simp [withMarks, hn]
      | cons c cs => simpa [withMarks, hn] using h
  | cons c mark =>
      rw [hn] at hmark
      have hc := (hmark c List.mem_cons_self).1
      cases cs <;> simpa [withMarks, hn] using hc

variable {a : Prop} {cs : List Char}

/-- A mark behind a line feed that ends the text starts another line. -/
theorem showsJust_lineFeed (hm : ∀ n, Invisible (m n)) (hmargin : Shows margin' margin) {n : ℕ}
    (h : ShowsJust a (laidOut margin' (withMarks m n cs)) (laidOut margin cs)) :
    ShowsJust ((cs = [] → m n = []) ∧ a) (laidOut margin' ('\n' :: withMarks m n cs))
      (laidOut margin ('\n' :: cs)) := by
  by_cases hcs : cs = []
  · subst hcs
    rw [withMarks] at h ⊢
    by_cases hmark : m n = []
    · rw [hmark] at h ⊢
      exact h.congr (by simp)
    · have hline := hmargin.append (hm n).shows
      rw [laidOut_lineFeed margin' hmark, laidOut_eq_self margin' (hm n).unbroken]
      exact ((ShowsJust.of_nil hline).more (by decide)).congr (by simp [hmark])
  · rw [laidOut_lineFeed margin hcs, laidOut_lineFeed margin' (withMarks_ne_nil hcs)]
    have hstart := (Shows.plain (t := ['\n']) (by decide)).append hmargin
    exact (h.prepend hstart).congr (by simp [hcs])

/-- A mark between a carriage return and a line feed keeps the carriage return. -/
theorem showsJust_return (hm : ∀ n, Invisible (m n)) {n : ℕ}
    (h : ShowsJust a (laidOut margin' (withMarks m n ('\n' :: cs))) (laidOut margin ('\n' :: cs))) :
    ShowsJust (m n = [] ∧ a) (laidOut margin' ('\r' :: withMarks m n ('\n' :: cs)))
      (laidOut margin ('\r' :: '\n' :: cs)) := by
  rw [laidOut_return]
  by_cases hmark : m n = []
  · have hfeed : withMarks m n ('\n' :: cs) = '\n' :: withMarks m (n + 1) cs := by
      rw [withMarks, hmark]
      rfl
    rw [hfeed] at h ⊢
    rw [laidOut_return]
    exact h.congr (by simp [hmark])
  · rw [laidOut_cons margin' (by decide) fun h => head?_withMarks hm (.inl hmark) h.2]
    exact (h.more (by decide)).congr (by simp [hmark])

/-- The lines of a text with marks show the lines of the text, and nothing else unless a mark stands
where a line does not end yet or where none starts any more. -/
theorem showsJust_laidOut (hm : ∀ n, Invisible (m n)) (hmargin : Shows margin' margin)
    (hcs : '\x1b' ∉ cs) (n : ℕ) :
    ShowsJust (∀ k ∈ breakPlaces n cs, m k = []) (laidOut margin' (withMarks m n cs))
      (laidOut margin cs) := by
  induction cs generalizing n with
  | nil =>
      rw [withMarks, laidOut_eq_self margin' (hm n).unbroken]
      exact (ShowsJust.of_shows (hm n).shows).congr (by simp [breakPlaces])
  | cons c cs ih =>
      rw [List.mem_cons, not_or] at hcs
      obtain ⟨hc, hcs⟩ := hcs
      have hnext := ih hcs (n + c.utf8Size)
      rw [withMarks, laidOut_append margin' (hm n).unbroken, breakPlaces]
      refine (hm n).showsJust ?_
      by_cases hfeed : c = '\n'
      · subst hfeed
        refine (showsJust_lineFeed hm hmargin hnext).congr ?_
        by_cases hend : cs = [] <;> simp [hend]
      by_cases hreturn : c = '\r' ∧ cs.head? = some '\n'
      · rw [if_pos (.inl hreturn), List.forall_mem_cons]
        obtain ⟨rfl, hhead⟩ := hreturn
        obtain ⟨cs, rfl⟩ := List.head?_eq_some_iff.mp hhead
        exact showsJust_return hm hnext
      · rw [if_neg (by simp [hfeed, hreturn]), laidOut_cons margin hfeed hreturn,
          laidOut_cons margin' hfeed fun h =>
            head?_withMarks hm (.inr fun hhead => hreturn ⟨h.1, hhead⟩) h.2]
        exact hnext.prepend (.plain (t := [c]) (by simpa using hc))

end LaidOut

variable {l : DiagnosticLine}

/-- A painted highlight starts or ends where a line does not end yet or where none starts any
more. -/
def CutsBreak (l : DiagnosticLine) : Prop :=
  ∃ a ∈ painted l.text.toList 0 l.highlights,
    a.start ∈ breakPlaces 0 l.text.toList ∨ a.stop ∈ breakPlaces 0 l.text.toList
  deriving Decidable

section Displaying
variable [Painting]

/-- The margin of the first line. -/
def firstMargin (color : Bool) (l : DiagnosticLine) : List Char :=
  if l.number = 0 then margin color else numberedMargin color l.number

theorem display_of_empty (color : Bool) (h : l.text = "") :
    l.display color = l.firstMargin color := by
  rw [display, h]
  rfl

theorem display_eq {color : Bool} (htext : l.text ≠ "") {shown : List Char} (h : shown ≠ [])
    (hshown : l.highlighted (Painting.paint color .highlight) = shown) :
    l.display color = l.firstMargin color ++ laidOut (margin color) shown := by
  have hfull : ¬l.text.isEmpty = true := fun h => htext (String.isEmpty_iff.mp h)
  rw [display, laidOut, if_neg hfull, hshown]
  cases hlines : lines shown with
  | nil => exact absurd (lines_eq_nil_iff.mp hlines) h
  | cons line more => exact List.append_assoc _ _ _

end Displaying

section Highlighted
variable {paint : List Char → List Char} {on off : List Char}

theorem highlighted_eq (hpaint : ∀ t, '\x1b' ∉ t → paint t = on ++ (t ++ off))
    (h : '\x1b' ∉ l.text.toList) : l.highlighted paint =
      withMarks (marks on off (painted l.text.toList 0 l.highlights)) 0 l.text.toList :=
  highlight_eq_withMarks [] l.text.toList l.highlights fun piece hpiece =>
    hpaint piece fun hc => h (hpiece hc)

theorem highlighted_plain (hpaint : ∀ t, paint t = t) (l : DiagnosticLine) :
    l.highlighted paint = l.text.toList := by
  have h : l.highlighted paint =
      withMarks (marks [] [] (painted l.text.toList 0 l.highlights)) 0 l.text.toList :=
    highlight_eq_withMarks [] l.text.toList l.highlights fun piece _ =>
      (hpaint piece).trans (List.append_nil piece).symm
  rw [h, withMarks_eq_self fun k => by simp [marks]]

end Highlighted

theorem escape_notMem_toString (n : ℕ) : '\x1b' ∉ (toString n).toList := fun h => by
  rw [Nat.toString_eq_repr, Nat.toList_repr] at h
  have hdigit := Nat.isDigit_of_mem_toDigits (by decide : 0 < 10) (Nat.le_refl 10) h
  revert hdigit
  decide

variable [Painting]

theorem shows_margin (hp : Painting.Lawful) : Shows (margin true) (margin false) :=
  hp.shows (by decide) .margin

theorem shows_firstMargin (hp : Painting.Lawful) (l : DiagnosticLine) :
    Shows (l.firstMargin true) (l.firstMargin false) := by
  rw [firstMargin, firstMargin]
  split
  · exact shows_margin hp
  · refine hp.shows (fun h => ?_) .margin
    rw [List.append_assoc, List.mem_append, List.mem_append] at h
    rcases h with h | h | h
    · exact absurd (List.eq_of_mem_replicate h) (by decide)
    · exact escape_notMem_toString _ h
    · revert h
      decide

/-- A line in colour shows the plain one, and nothing else unless a highlight cuts a line break. -/
theorem showsJust_display (hp : Painting.Lawful) (h : '\x1b' ∉ l.text.toList) :
    ShowsJust (¬l.CutsBreak) (l.display true) (l.display false) := by
  by_cases htext : l.text = ""
  · rw [display_of_empty true htext, display_of_empty false htext]
    exact (ShowsJust.of_shows (l.shows_firstMargin hp)).congr
      (by simp [CutsBreak, htext, breakPlaces])
  have hne : l.text.toList ≠ [] := fun h => htext (String.toList_eq_nil_iff.mp h)
  obtain ⟨on, off, hon, hoff, hframed⟩ := hp.framed .highlight
  rw [display_eq htext (withMarks_ne_nil hne) (highlighted_eq hframed h),
    display_eq htext hne (highlighted_plain (hp.plain .highlight) l)]
  have hlines := showsJust_laidOut (fun n => .marks (.sequence hon) (.sequence hoff)
    (painted l.text.toList 0 l.highlights) n) (shows_margin hp) h 0
  refine (hlines.prepend (l.shows_firstMargin hp)).congr ?_
  simp only [marks_eq_nil_iff hon.ne_nil hoff.ne_nil, CutsBreak]
  grind

end DiagnosticLine

namespace Diagnostic
open Style

/-- The texts of a diagnostic. -/
def texts (d : Diagnostic) : List String :=
  d.path :: d.rule :: d.message :: d.lines.map DiagnosticLine.text

variable {d : Diagnostic}

section Displaying
variable [Painting]

theorem showsJust_flatMap (hp : Painting.Lawful) {lines : List DiagnosticLine}
    (h : ∀ l ∈ lines, '\x1b' ∉ l.text.toList) :
    ShowsJust (∀ l ∈ lines, ¬l.CutsBreak) (lines.flatMap fun l => '\n' :: l.display true)
      (lines.flatMap fun l => '\n' :: l.display false) := by
  induction lines with
  | nil => exact (ShowsJust.of_shows .nil).congr (by simp)
  | cons l lines ih =>
      obtain ⟨hl, hlines⟩ := List.forall_mem_cons.mp h
      have hline := (DiagnosticLine.showsJust_display hp hl).prepend
        (Shows.plain (t := ['\n']) (by decide))
      exact (hline.append (ih hlines)).congr (by simp)

def bar (color : Bool) : List Char :=
  '\n' :: Painting.paint color .margin "        |".toList

theorem shows_bar (hp : Painting.Lawful) : Shows (bar true) (bar false) :=
  .append (p := ['\n']) (.plain (by decide)) (hp.shows (by decide) .margin)

theorem displayLines_eq (color : Bool) (h : d.lines ≠ []) : d.displayLines color =
    bar color ++ ((d.lines.flatMap fun l => '\n' :: l.display color) ++ (bar color ++ ['\n'])) := by
  rw [displayLines, if_neg (by simpa using h)]
  dsimp only
  rw [List.cons_append, intercalate_cons, List.cons_append, List.flatMap_cons, List.flatMap_append,
    List.flatMap_map]
  rfl

theorem showsJust_displayLines (hp : Painting.Lawful)
    (h : ∀ l ∈ d.lines, '\x1b' ∉ l.text.toList) :
    ShowsJust (∀ l ∈ d.lines, ¬l.CutsBreak) (d.displayLines true) (d.displayLines false) := by
  by_cases hlines : d.lines = []
  · rw [displayLines, displayLines, hlines, List.isEmpty_nil, if_pos rfl, if_pos rfl]
    exact (ShowsJust.of_shows (.plain (by decide))).congr (by simp)
  · rw [displayLines_eq true hlines, displayLines_eq false hlines]
    have hend := ShowsJust.of_shows ((shows_bar hp).append (.plain (t := ['\n']) (by decide)))
    exact (((showsJust_flatMap hp h).append hend).prepend (shows_bar hp)).congr
      (iff_of_eq (and_true _))

/-- What stands before the lines. -/
def head (color : Bool) (d : Diagnostic) : List Char :=
  Painting.paint color .path d.path.toList ++
    ((d.lines.head?.elim "" fun l => s!":{l.number}").toList ++
      (": [".toList ++ (Painting.paint color d.severity.style d.severity.name.toList ++
        (":".toList ++ (d.rule.toList ++ ("] ".toList ++ d.message.toList))))))

theorem toList_display (color : Bool) (d : Diagnostic) :
    (d.display color).toList = d.head color ++ d.displayLines color := by
  simp [display, head, Severity.text, paintString, toString]

theorem shows_head (hp : Painting.Lawful) (h : ∀ s ∈ d.texts, '\x1b' ∉ s.toList) :
    Shows (d.head true) (d.head false) := by
  simp only [texts, List.forall_mem_cons] at h
  obtain ⟨hpath, hrule, hmessage, -⟩ := h
  have hplace : '\x1b' ∉ (d.lines.head?.elim "" fun l => s!":{l.number}").toList := by
    cases d.lines.head? with
    | none => simp
    | some l => simpa [toString] using DiagnosticLine.escape_notMem_toString l.number
  have hseverity : '\x1b' ∉ d.severity.name.toList := by
    cases d.severity <;> decide
  exact (hp.shows hpath .path).append <| (Shows.plain hplace).append <|
    (Shows.plain (by decide)).append <| (hp.shows hseverity d.severity.style).append <|
    (Shows.plain (by decide)).append <| (Shows.plain hrule).append <|
    (Shows.plain (by decide)).append <| Shows.plain hmessage

theorem showsJust_display (hp : Painting.Lawful) (h : ∀ s ∈ d.texts, '\x1b' ∉ s.toList) :
    ShowsJust (∀ l ∈ d.lines, ¬l.CutsBreak) (d.display true).toList (d.display false).toList := by
  have hlines : ∀ l ∈ d.lines, '\x1b' ∉ l.text.toList := fun l hl =>
    h l.text (by simp [texts, List.mem_map_of_mem hl])
  rw [toList_display, toList_display]
  exact (showsJust_displayLines hp hlines).prepend (shows_head hp h)

/-- Without its colour sequences a display in colour has all of the plain one. It has nothing else
exactly if no highlight cuts a line break. -/
theorem strip_display (hp : Painting.Lawful) (d : Diagnostic)
    (h : ∀ s ∈ d.texts, '\x1b' ∉ s.toList) :
    (d.display false).toList.Sublist (strip (d.display true).toList) ∧
      (strip (d.display true).toList = (d.display false).toList ↔
        ∀ l ∈ d.lines, ¬l.CutsBreak) := by
  obtain ⟨t, ht, hsublist, hcond⟩ := showsJust_display hp h
  rw [ht.strip_eq]
  exact ⟨hsublist, hcond⟩

end Displaying

/-- A highlight may cover line breaks; one that starts inside it is not painted. -/
theorem strip_display_across :
    let d : Diagnostic :=
      { path := "fr.po"
        rule := "d-formats"
        severity := .warning
        message := "é"
        lines := [⟨12, "%d\r\n\n%s\n", [⟨1, 6⟩, ⟨0, 8⟩, ⟨6, 7⟩]⟩, ⟨0, "", [⟨0, 0⟩]⟩] }
    Painting.Lawful ∧ (∀ s ∈ d.texts, '\x1b' ∉ s.toList) ∧ (∀ l ∈ d.lines, ¬l.CutsBreak) ∧
      strip (d.display true).toList = (d.display false).toList := by
  intro d
  have htexts : ∀ s ∈ d.texts, '\x1b' ∉ s.toList := by decide
  have hlines : ∀ l ∈ d.lines, ¬l.CutsBreak := by decide +kernel
  exact ⟨Terminal.lawful, htexts, hlines, (strip_display Terminal.lawful d htexts).2.mpr hlines⟩

/-- A line that ends in a line feed is highlighted up to its end. In colour another line follows
it. -/
theorem not_strip_display :
    let data := "#, d-format\nmsgid \"%d\\n\"\nmsgstr \"%\\n\"\n".toUTF8.toList
    let d : Diagnostic :=
      { path := "fr.po"
        rule := "d-formats"
        severity := .error
        message := "'msgstr' is not a valid D format string, unlike 'msgid'. Reason: " ++
          "In the directive number 1, the character '\n' is not a valid conversion specifier."
        lines := [⟨2, "%d\n", [⟨0, 2⟩]⟩, ⟨0, "", []⟩, ⟨3, "%\n", [⟨1, 2⟩]⟩] }
    (Catalog.read data).check "fr.po" [.formats] ⟨false, false, false⟩ = [d] ∧
      (∀ s ∈ d.texts, '\x1b' ∉ s.toList) ∧
      strip (d.display true).toList ≠ (d.display false).toList := by
  intro data d
  have hcheck : (Catalog.read data).check "fr.po" [.formats] ⟨false, false, false⟩ = [d] := by
    decide +kernel
  have htexts : ∀ s ∈ d.texts, '\x1b' ∉ s.toList := by decide +kernel
  have hcuts : ¬∀ l ∈ d.lines, ¬l.CutsBreak := by decide +kernel
  obtain ⟨t, ht, -, hcond⟩ := showsJust_display Terminal.lawful htexts
  exact ⟨hcheck, htexts, fun h => hcuts (hcond.mp (ht.strip_eq.symm.trans h))⟩

end Diagnostic

end CatalogLint
