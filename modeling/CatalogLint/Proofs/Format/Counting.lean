import CatalogLint.Proofs.Format.Layout
import CatalogLint.Proofs.Text.Piece

/-!
# Counting the open directives

The indicator of a byte says which marks are on it (`Indicator.ofMarks_eq`), so that the outermost
directives are found from the marks alone, in the order of their places (`Span.shown`). The marks
of a wording cancel out inside an open directive, and show its outermost directives where none is
open (`Span.shown_wording`). Whatever the marks, the pieces they show come one after the other
(`Span.inOrder_spans`).
-/
namespace CatalogLint

namespace Indicator
variable {marks : List Mark} {m : Mark} {n : ℕ}

/-- The indicator of a byte. -/
def ofByte (marks : List Mark) (n : ℕ) : Indicator :=
  ⟨decide (.start n ∈ marks), decide (.stop n ∈ marks), decide (.fault n ∈ marks)⟩

theorem ofByte_concat (marks : List Mark) (m : Mark) (n : ℕ) :
    ofByte (marks ++ [m]) n = if m.place = n then (ofByte marks n).add m else ofByte marks n := by
  cases m <;> grind [ofByte, Mark.place, add]

theorem ofByte_eq_none (h : ∀ m ∈ marks, m.place ≠ n) : ofByte marks n = none := by
  have hstart : Mark.start n ∉ marks := fun hm => h _ hm rfl
  have hstop : Mark.stop n ∉ marks := fun hm => h _ hm rfl
  have hfault : Mark.fault n ∉ marks := fun hm => h _ hm rfl
  simp [ofByte, none, hstart, hstop, hfault]

theorem ofByte_cons (h : ∀ m' ∈ marks, m.place < m'.place) :
    ofByte (m :: marks) m.place = none.add m := by
  have hnone : ofByte marks m.place = none := ofByte_eq_none fun m' hm' => (h m' hm').ne'
  simp only [ofByte, none, mk.injEq, decide_eq_false_iff_not] at hnone
  obtain ⟨hstart, hstop, hfault⟩ := hnone
  cases m <;> simp_all [ofByte, Mark.place, none, add]

theorem ofMarks_eq (size : ℕ) (marks : List Mark) :
    ofMarks size marks = (List.range size).map (ofByte marks) := by
  induction marks using List.reverseRecOn with
  | nil =>
      apply List.ext_getElem
      · simp [ofMarks]
      · intro n _ _
        simp [ofMarks, ofByte, none]
  | append_singleton marks m ih =>
      rw [ofMarks, List.foldl_append, ← ofMarks, ih, List.foldl_cons, List.foldl_nil]
      apply List.ext_getElem
      · simp
      · intro n _ _
        simp only [List.getElem_modify, List.getElem_map, List.getElem_range, ofByte_concat]

end Indicator

namespace Span
open Indicator

variable {cs : List Char} {marks marks' : List Mark} {place q depth start : ℕ}

/-- The outermost directives that marks show from a byte on, where `depth` directives are open,
the outermost since `start`. -/
def shown (cs : List Char) (marks : List Mark) (place depth start : ℕ) : List Span :=
  collect cs place 0 depth start
    ((List.range' place (Text.byteLength cs - place)).map (ofByte marks))

theorem spans_ofMarks (cs : List Char) (marks : List Mark) :
    spans cs (ofMarks (Text.byteLength cs) marks) = shown cs marks 0 0 0 := by
  rw [spans, ofMarks_eq, shown, List.range_eq_range', Nat.sub_zero, List.take_of_length_le]
  simp

theorem shown_of_le (h : Text.byteLength cs ≤ place) : shown cs marks place depth start = [] := by
  rw [shown, Nat.sub_eq_zero_of_le h]
  rfl

theorem shown_of_lt (h : place < Text.byteLength cs) :
    shown cs marks place depth start = collect cs place 0 depth start (ofByte marks place ::
      (List.range' (place + 1) (Text.byteLength cs - (place + 1))).map (ofByte marks)) := by
  obtain ⟨k, hk⟩ := Nat.exists_eq_add_of_lt h
  have hsize : Text.byteLength cs - place = Text.byteLength cs - (place + 1) + 1 := by omega
  rw [shown, hsize, List.range'_succ, List.map_cons]

theorem map_ofByte_congr (h : ∀ m : Mark, place ≤ m.place → (m ∈ marks ↔ m ∈ marks')) (k : ℕ) :
    (List.range' place k).map (ofByte marks) = (List.range' place k).map (ofByte marks') := by
  apply List.map_congr_left
  intro n hn
  have hle : place ≤ n := (List.mem_range'_1.mp hn).1
  rw [ofByte, ofByte, decide_eq_decide.mpr (h (.start n) hle),
    decide_eq_decide.mpr (h (.stop n) hle), decide_eq_decide.mpr (h (.fault n) hle)]

/-- Only the marks from the byte on count. -/
theorem shown_congr (h : ∀ m : Mark, place ≤ m.place → (m ∈ marks ↔ m ∈ marks')) :
    shown cs marks place depth start = shown cs marks' place depth start := by
  rw [shown, shown, map_ofByte_congr h]

/-- Nothing happens where no mark is. -/
theorem shown_quiet (hle : place ≤ q) (h : ∀ m ∈ marks, m.place < place ∨ q ≤ m.place) :
    shown cs marks place depth start = shown cs marks q depth start := by
  induction q, hle using Nat.le_induction with
  | base => rfl
  | succ q hle ih =>
      rw [ih fun m hm => (h m hm).imp_right fun h => (Nat.le_succ q).trans h]
      rcases Nat.lt_or_ge q (Text.byteLength cs) with hlt | hge
      · have hnone : ofByte marks q = .none := ofByte_eq_none fun m hm => by
          have := h m hm
          omega
        rw [shown_of_lt hlt, hnone, collect]
        simp [Indicator.none, shown]
      · rw [shown_of_le hge, shown_of_le (Nat.le_succ_of_le hge)]

theorem shown_nil : shown cs [] place depth start = [] := by
  rcases Nat.le_total (Text.byteLength cs) place with hle | hle
  · exact shown_of_le hle
  · rw [shown_quiet hle fun m hm => absurd hm List.not_mem_nil, shown_of_le le_rfl]

/-- Up to the first mark nothing happens, and then it is left behind. -/
theorem shown_cons {m : Mark} (hle : place ≤ m.place) (hlt : m.place < Text.byteLength cs)
    (h : ∀ m' ∈ marks, m.place < m'.place) :
    shown cs (m :: marks) place depth start =
      collect cs m.place 0 depth start (Indicator.none.add m ::
        (List.range' (m.place + 1) (Text.byteLength cs - (m.place + 1))).map (ofByte marks)) := by
  have hquiet : ∀ m' ∈ m :: marks, m'.place < place ∨ m.place ≤ m'.place := by
    intro m' hm'
    rcases List.mem_cons.mp hm' with rfl | hm'
    · exact .inr le_rfl
    · exact .inr (h m' hm').le
  have hmem : ∀ m' : Mark, m.place + 1 ≤ m'.place → (m' ∈ m :: marks ↔ m' ∈ marks) := by
    intro m' hm'
    rw [List.mem_cons, or_iff_right]
    rintro rfl
    omega
  rw [shown_quiet hle hquiet, shown_of_lt hlt, ofByte_cons h, map_ofByte_congr hmem]

theorem shown_start (hle : place ≤ q) (hlt : q < Text.byteLength cs)
    (h : ∀ m ∈ marks, q < m.place) : shown cs (.start q :: marks) place depth start =
      shown cs marks (q + 1) (depth + 1) (if depth = 0 then q else start) := by
  rw [shown_cons (m := .start q) hle hlt h, collect]
  simp [Indicator.none, add, shown, Mark.place]

/-- The end of the outermost directive. -/
theorem shown_stop (hle : place ≤ q) (hlt : q < Text.byteLength cs)
    (h : ∀ m ∈ marks, q < m.place) : shown cs (.stop q :: marks) place 1 start =
      ⟨start, q + 1⟩ :: shown cs marks (q + 1) 0 0 := by
  rw [shown_cons (m := .stop q) hle hlt h, collect]
  simp [Indicator.none, add, shown, Mark.place]

theorem shown_stop_inner (hle : place ≤ q) (hlt : q < Text.byteLength cs)
    (h : ∀ m ∈ marks, q < m.place) : shown cs (.stop q :: marks) place (depth + 2) start =
      shown cs marks (q + 1) (depth + 1) start := by
  rw [shown_cons (m := .stop q) hle hlt h, collect]
  simp [Indicator.none, add, shown, Mark.place]

theorem collect_skipped (cs : List Char) (is : List Indicator) (place skipped : ℕ) :
    collect cs place skipped 0 0 is = collect cs (place + skipped) 0 0 0 (is.drop skipped) := by
  induction skipped generalizing place is with
  | zero => rfl
  | succ k ih =>
      cases is with
      | nil => rfl
      | cons i is =>
          rw [collect, if_pos (Nat.succ_pos k), Nat.add_sub_cancel, ih, List.drop_succ_cons]
          congr 1
          omega

theorem collect_skipped_to (hle : place ≤ q) :
    collect cs place (q - place) 0 0
      ((List.range' place (Text.byteLength cs - place)).map (ofByte marks)) =
        shown cs marks q 0 0 := by
  have hsize : Text.byteLength cs - place - (q - place) = Text.byteLength cs - q := by omega
  rw [collect_skipped, ← List.map_drop, List.drop_range', Nat.mul_one, Nat.add_sub_cancel' hle,
    hsize, shown]

/-- A fault ends all that is open, with the character at which it shows. -/
theorem shown_fault (hlt : place < Text.byteLength cs) (hfault : .fault place ∈ marks)
    (hstop : .stop place ∉ marks) (hopen : 0 < depth ∨ .start place ∈ marks) :
    let stop := Text.boundaryFrom cs (place + 1)
    shown cs marks place depth start =
      ⟨if depth = 0 then place else start, stop⟩ :: shown cs marks stop 0 0 := by
  have hle : place + 1 ≤ Text.boundaryFrom cs (place + 1) := (Text.boundaryFrom_spec hlt).1
  have hdepth : 0 < if .start place ∈ marks then depth + 1 else depth := by
    split_ifs with h
    · exact Nat.succ_pos depth
    · exact hopen.resolve_right h
  have hstart : (if .start place ∈ marks ∧ depth = 0 then place else start) =
      if depth = 0 then place else start := by
    by_cases h : depth = 0
    · simp [h, hopen.resolve_left (Nat.not_lt.mpr h.le)]
    · simp [h]
  rw [shown_of_lt hlt, collect]
  simp [ofByte, hstop, hfault, hdepth, hstart, collect_skipped_to hle]

/-! ### The marks of a wording -/

/-- A directive whose inside cancels out does so itself if it is nested, and is shown if not. -/
theorem shown_directive (inner : List Mark) (inside : ℕ) {n stop : ℕ} (hle : place ≤ n)
    (hn : n + 1 < stop) (hsize : stop ≤ Text.byteLength cs) (hinside : inside < stop)
    (hfirst : ∀ m ∈ inner, n < m.place) (h : ∀ m ∈ marks, stop ≤ m.place)
    (hinner : ∀ depth start,
      shown cs (inner ++ .stop (stop - 1) :: marks) (n + 1) (depth + 1) start =
        shown cs (.stop (stop - 1) :: marks) inside (depth + 1) start) :
    (∀ depth start,
      shown cs (.start n :: (inner ++ .stop (stop - 1) :: marks)) place (depth + 1) start =
        shown cs marks stop (depth + 1) start) ∧
    shown cs (.start n :: (inner ++ .stop (stop - 1) :: marks)) place 0 0 =
      ⟨n, stop⟩ :: shown cs marks stop 0 0 := by
  obtain ⟨last, rfl⟩ : ∃ last, stop = last + 1 := Nat.exists_eq_succ_of_ne_zero (by omega)
  rw [Nat.add_sub_cancel] at hinner ⊢
  have hlt : n < last := Nat.lt_of_succ_lt_succ hn
  have hafter : ∀ m ∈ inner ++ .stop last :: marks, n < m.place := by
    rw [List.forall_mem_append, List.forall_mem_cons]
    exact ⟨hfirst, hlt, fun m hm => hlt.trans (h m hm)⟩
  have hinside : inside ≤ last := Nat.le_of_lt_succ hinside
  constructor
  · intro depth start
    rw [shown_start hle (hlt.trans hsize) hafter, hinner, shown_stop_inner hinside hsize h,
      if_neg (Nat.succ_ne_zero depth)]
  · rw [shown_start hle (hlt.trans hsize) hafter, hinner, shown_stop hinside hsize h, if_pos rfl]

/-- Inside an open directive the marks of a wording cancel out, and where none is open they show
its outermost directives. -/
theorem shown_wording (cs : List Char) (marks : List Mark) (w : Wording) {n : ℕ} (hle : place ≤ n)
    (hsize : n + Text.byteLength w.chars ≤ Text.byteLength cs)
    (h : ∀ m ∈ marks, n + Text.byteLength w.chars ≤ m.place) :
    (∀ depth start, shown cs (w.marks n ++ marks) place (depth + 1) start =
      shown cs marks (n + Text.byteLength w.chars) (depth + 1) start) ∧
    shown cs (w.marks n ++ marks) place 0 0 =
      w.spans n ++ shown cs marks (n + Text.byteLength w.chars) 0 0 := by
  -- Both parts go together: a body is passed over at the depth that its directive has opened.
  induction w generalizing n place marks with
  | done =>
      have hquiet : ∀ m ∈ marks, m.place < place ∨ n ≤ m.place := fun m hm => .inr (h m hm)
      exact ⟨fun _ _ => shown_quiet hle hquiet, shown_quiet hle hquiet⟩
  | text c rest ih =>
      rw [Wording.chars, Text.byteLength_append, ← Nat.add_assoc] at h hsize ⊢
      exact ih _ (hle.trans (Nat.le_add_right _ _)) hsize h
  | value o s rest ih =>
      have hlen := Wording.two_le_before o s.letter
      rw [Wording.chars_value, Text.byteLength_append, ← Nat.add_assoc] at h hsize ⊢
      obtain ⟨hnested, houtermost⟩ := shown_directive [] (n + 1) hle (by omega)
        (Nat.le_of_add_right_le hsize) (by omega) (List.forall_mem_nil _)
        (Wording.le_place_append h) fun _ _ => rfl
      obtain ⟨hrest, hshown⟩ := ih _ le_rfl hsize h
      constructor
      · intro depth start
        exact (hnested depth start).trans (hrest depth start)
      · exact houtermost.trans (congrArg _ hshown)
  | compound o body closing rest ihbody ih =>
      have hlen := Wording.two_le_before o '('
      have hclosing := Wording.two_le_closing closing
      have hstop := Wording.place_compoundText o body closing n
      rw [Wording.chars_compound, Text.byteLength_append, ← Nat.add_assoc] at h hsize ⊢
      let stop := n + Text.byteLength (Wording.compoundText o body closing)
      have hafter : ∀ m ∈ rest.marks stop ++ marks, stop ≤ m.place := Wording.le_place_append h
      have hlast : ∀ m ∈ .stop (stop - 1) :: (rest.marks stop ++ marks),
          n + Text.byteLength (o.before '(') + Text.byteLength body.chars ≤ m.place := by
        rw [List.forall_mem_cons]
        exact ⟨by simp only [Mark.place, stop]; omega, fun m hm => by have := hafter m hm; omega⟩
      have hfirst : ∀ m ∈ body.marks (n + Text.byteLength (o.before '(')), n < m.place := by
        intro m hm
        have := (Wording.place_of_mem_marks hm).1
        omega
      have hopening : n + 1 ≤ n + Text.byteLength (o.before '(') := by omega
      obtain ⟨hbody, -⟩ := ihbody _ hopening (by omega) hlast
      obtain ⟨hnested, houtermost⟩ := shown_directive _ _ hle (by omega)
        (Nat.le_of_add_right_le hsize) (by omega) hfirst hafter hbody
      obtain ⟨hrest, hshown⟩ := ih _ le_rfl hsize h
      rw [Wording.marks, List.cons_append, List.append_assoc, List.cons_append]
      constructor
      · intro depth start
        exact (hnested depth start).trans (hrest depth start)
      · exact houtermost.trans (congrArg _ hshown)

/-! ### The order of what is shown -/

variable {low : ℕ}

/-- If directives are open, the outermost one started before a place. -/
def OpenSince (cs : List Char) (low place depth start : ℕ) : Prop :=
  0 < depth → low ≤ start ∧ start < place ∧ Text.isBoundary cs start = true

theorem openSince_zero : OpenSince cs low place 0 start :=
  fun h => absurd h (Nat.lt_irrefl 0)

theorem OpenSince.next (h : OpenSince cs low place depth start) (hlow : low ≤ place)
    (hstart : .start place ∈ marks → Text.isBoundary cs place = true) :
    OpenSince cs low (place + 1) (if (ofByte marks place).starts then depth + 1 else depth)
      (if (ofByte marks place).starts && depth = 0 then place else start) := by
  intro hdepth
  by_cases hs : .start place ∈ marks
  · rcases Nat.eq_zero_or_pos depth with rfl | hpos
    · simp [ofByte, hs, hlow, hstart hs]
    · obtain ⟨hle, hlt, hb⟩ := h hpos
      simp [ofByte, hpos.ne', hle, hb, Nat.lt_succ_of_lt hlt]
  · simp only [ofByte, hs, decide_false, Bool.false_eq_true, if_false] at hdepth
    obtain ⟨hle, hlt, hb⟩ := h hdepth
    simp [ofByte, hs, hle, hb, Nat.lt_succ_of_lt hlt]

/-- Whatever directives are found, they are pieces of the text in their order. -/
theorem inOrder_collect {k skipped : ℕ} (hsize : place + k ≤ Text.byteLength cs)
    (hstart : ∀ n, .start n ∈ marks → Text.isBoundary cs n = true)
    (hstop : ∀ n, .stop n ∈ marks → Text.isBoundary cs (n + 1) = true)
    (hlow : low ≤ place + skipped) (hopen : OpenSince cs low place depth start) :
    InOrder cs low (collect cs place skipped depth start
      ((List.range' place k).map (ofByte marks))) := by
  induction k generalizing place skipped depth start low with
  | zero => trivial
  | succ k ih =>
      rw [List.range'_succ, List.map_cons, collect]
      by_cases hskip : 0 < skipped
      · rw [if_pos hskip]
        refine ih (by omega) (by omega) fun h => ?_
        obtain ⟨hle, hlt, hb⟩ := hopen h
        exact ⟨hle, Nat.lt_succ_of_lt hlt, hb⟩
      rw [if_neg hskip]
      have hnext := hopen.next (by omega) (hstart place)
      dsimp only
      -- What is open, and since when, once a start at this byte has been counted.
      generalize (if (ofByte marks place).starts && depth = 0 then place else start) = since
        at hnext ⊢
      generalize (if (ofByte marks place).starts then depth + 1 else depth) = opened at hnext ⊢
      by_cases hlast : (ofByte marks place).stops && opened = 1
      · rw [if_pos hlast]
        simp only [ofByte, Bool.and_eq_true, decide_eq_true_eq] at hlast
        obtain ⟨hstops, rfl⟩ := hlast
        obtain ⟨hle, hlt, hb⟩ := hnext Nat.one_pos
        exact ⟨hle, hlt, hb, hstop place hstops, ih (by omega) le_rfl openSince_zero⟩
      rw [if_neg hlast]
      have hremaining : (if (ofByte marks place).stops then opened - 1 else opened) ≤ opened := by
        split_ifs <;> omega
      generalize (if (ofByte marks place).stops then opened - 1 else opened) = remaining
        at hremaining ⊢
      split_ifs with hfault
      · simp only [Bool.and_eq_true, decide_eq_true_eq] at hfault
        obtain ⟨hle, hlt, hb⟩ := hnext (hfault.2.trans_le hremaining)
        obtain ⟨hto, hb'⟩ := Text.boundaryFrom_spec (show place + 1 ≤ Text.byteLength cs by omega)
        exact ⟨hle, hlt.trans_le hto, hb, hb',
          ih (by omega) (Nat.add_sub_cancel' hto).ge openSince_zero⟩
      · exact ih (by omega) (by omega) fun h => hnext (h.trans_le hremaining)

theorem inOrder_spans (hstart : ∀ n, .start n ∈ marks → Text.isBoundary cs n = true)
    (hstop : ∀ n, .stop n ∈ marks → Text.isBoundary cs (n + 1) = true) :
    InOrder cs 0 (spans cs (ofMarks (Text.byteLength cs) marks)) := by
  rw [spans_ofMarks, shown]
  exact inOrder_collect (by omega) hstart hstop (Nat.le_refl 0) openSince_zero

end Span

end CatalogLint
