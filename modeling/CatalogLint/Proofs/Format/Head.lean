import CatalogLint.Proofs.Format.Wording
import CatalogLint.Proofs.Text.Split

/-!
# Scanning the head of a directive

What stands between `%` and the specifier is read as it is meant (`scanHead_text`), whatever
digits and flags run into one another there: zeros ahead of a width are flags, and a number is a
position only if a `$` ends it. The places that scanning notes are left open.
-/
namespace CatalogLint
open Cursor

/-- What comes next ends numbers, flags and amounts. -/
def Delimits (w : List Char) : Prop :=
  ∃ c cs, w = c :: cs ∧ c.isDigit = false ∧ isFlag c = false ∧ c ≠ '*' ∧ c ≠ '$' ∧ c ≠ ':'

/-- No number is ahead that a `$` or a `:` ends. -/
def Unnumbered (w : List Char) : Prop :=
  ∀ c ∈ (w.dropWhile Char.isDigit).head?, c ≠ '$' ∧ c ≠ ':'

/-- A character that ends a directive, as all specifiers do. -/
def isFinal (s : Char) : Bool :=
  !(s.isDigit || isFlag s || ['*', '$', ':', '.', ',', '?', '%'].contains s)

variable {p : Char → Bool} {ds w : List Char} {k n : ℕ} {s : Char}

theorem isFinal_of_specifierKinds {kinds : Kinds} (h : specifierKinds s = some kinds) :
    isFinal s = true := by
  unfold specifierKinds at h
  split at h
  all_goals first | decide | cases h

theorem skipWhile_append (hds : ∀ d ∈ ds, p d = true) (hw : ∀ c ∈ w.head?, p c = false) :
    ∃ m, skipWhile p ⟨n, ds ++ w⟩ = ⟨m, w⟩ :=
  ⟨_, by rw [skipWhile, dropWhile_append hds hw]⟩

theorem Delimits.isDigit (h : Delimits w) : ∀ c ∈ w.head?, c.isDigit = false := by
  obtain ⟨c, cs, rfl, hc, -⟩ := h
  simpa using hc

theorem Delimits.isFlag (h : Delimits w) : ∀ c ∈ w.head?, isFlag c = false := by
  obtain ⟨c, cs, rfl, -, hc, -⟩ := h
  simpa using hc

theorem Delimits.unnumbered (h : Delimits w) : Unnumbered w := by
  obtain ⟨c, cs, rfl, hc, -, -, hdollar, hcolon⟩ := h
  simp [Unnumbered, hc, hdollar, hcolon]

/-! ### Amounts -/

theorem scanWidth_nothing (use : NumberUse) (h : Delimits w) :
    scanWidth use k ⟨n, w⟩ = .ok (none, ⟨n, w⟩) := by
  obtain ⟨c, cs, rfl, hc, -, hstar, -⟩ := h
  simp [scanWidth, digits, hc, hstar]

theorem scanWidth_digits (use : NumberUse) (hds : ∀ d ∈ ds, d.isDigit = true) (h : Delimits w) :
    ∃ m, scanWidth use k ⟨n, ds ++ w⟩ = .ok (none, ⟨m, w⟩) := by
  cases ds with
  | nil => exact ⟨n, scanWidth_nothing use h⟩
  | cons d ds =>
      obtain ⟨m, hm⟩ := skipWhile_append (n := n) hds h.isDigit
      refine ⟨m, ?_⟩
      rw [scanWidth, digits, takeWhile_append hds h.isDigit, skipDigits, hm]
      rfl

theorem checkNumber_value (use : NumberUse) (m : ArgNumber) :
    checkNumber use k n (decimal m.digits) = .ok m.value := by
  rw [checkNumber, if_neg (Nat.ne_of_gt m.positive), if_neg (Nat.not_lt.mpr m.bounded)]
  rfl

theorem scanWidth_text (use : NumberUse) (a : Amount) (h : Delimits w) :
    ∃ m, scanWidth use k ⟨n, a.text ++ w⟩ = .ok (a.reference?, ⟨m, w⟩) := by
  cases a with
  | digits ds => exact scanWidth_digits use ds.areDigits h
  | next =>
      refine ⟨n + 1, ?_⟩
      have hw : w.takeWhile Char.isDigit = [] := takeWhile_of_head? h.isDigit
      simp [Amount.text, scanWidth, digits, hw, Amount.reference?]
  | numbered m =>
      have hdollar : ∀ c ∈ ('$' :: w).head?, c.isDigit = false := by simp
      obtain ⟨e, he⟩ := skipWhile_append (n := n + 1) m.areDigits hdollar
      refine ⟨e + 1, ?_⟩
      have htext : (Amount.numbered m).text ++ w = '*' :: (m.digits ++ '$' :: w) := by
        simp [Amount.text]
      rw [htext, scanWidth]
      simp only [digits, skipDigits, takeWhile_append m.areDigits hdollar, he, checkNumber_value]
      simp [m.nonempty, Except.map, Amount.reference?]

/-! ### The separator and the precision -/

theorem isFinal_iff : isFinal s = true ↔ s.isDigit = false ∧ isFlag s = false ∧
    s ≠ '*' ∧ s ≠ '$' ∧ s ≠ ':' ∧ s ≠ '.' ∧ s ≠ ',' ∧ s ≠ '?' ∧ s ≠ '%' := by
  simp [isFinal, and_assoc]

theorem delimits_of_isFinal (h : isFinal s = true) (w : List Char) : Delimits (s :: w) := by
  obtain ⟨hdigit, hflag, hstar, hdollar, hcolon, -⟩ := isFinal_iff.mp h
  exact ⟨s, w, rfl, hdigit, hflag, hstar, hdollar, hcolon⟩

variable {o : Opening}

theorem scanSeparator_text (hs : isFinal s = true) :
    ∃ m, scanSeparator ⟨n, o.separatorText ++ s :: w⟩ =
      ((o.head.groupSize, o.head.separator), ⟨m, s :: w⟩) := by
  obtain ⟨hdigit, -, hstar, -, -, -, hcomma, hquestion, -⟩ := isFinal_iff.mp hs
  unfold Opening.separatorText Opening.head
  cases o.separator with
  | none => exact ⟨n, by simp [scanSeparator, hcomma]⟩
  | some separator =>
      obtain ⟨size, char⟩ := separator
      have hend : ∀ c ∈ ((if char then ['?'] else []) ++ s :: w).head?,
          c.isDigit = false ∧ c ≠ '*' := by
        cases char <;> simp [hdigit, hstar]
      cases size with
      | absent =>
          cases char <;>
            exact ⟨_, by
              simp [scanSeparator, GroupSize.text, GroupSize.numeral?, digits, hdigit, hstar,
                hquestion]
              rfl⟩
      | next =>
          cases char <;>
            exact ⟨_, by
              simp [scanSeparator, GroupSize.text, GroupSize.numeral?, digits, hquestion]
              rfl⟩
      | digits ds =>
          have hdigits := fun c hc => (hend c hc).1
          obtain ⟨e, he⟩ := skipWhile_append (n := n + 1) ds.areDigits hdigits
          have htext : (',' :: (GroupSize.digits ds).text ++ if char then ['?'] else []) ++ s :: w =
              ',' :: (ds.digits ++ ((if char then ['?'] else []) ++ s :: w)) := by
            simp [GroupSize.text]
          simp only [Option.map_some, Option.getD_some, htext, scanSeparator, digits, skipDigits,
            takeWhile_append ds.areDigits hdigits, he]
          cases char <;>
            exact ⟨_, by simp [ds.nonempty, hquestion, GroupSize.numeral?]; rfl⟩

theorem delimits_separatorText (hs : isFinal s = true) :
    Delimits (o.separatorText ++ s :: w) ∧
      ∀ c ∈ (o.separatorText ++ s :: w).head?, c ≠ '.' := by
  obtain ⟨-, -, -, -, -, hdot, -⟩ := isFinal_iff.mp hs
  unfold Opening.separatorText
  cases o.separator with
  | none => exact ⟨delimits_of_isFinal hs w, by simpa using hdot⟩
  | some separator =>
      constructor
      · exact ⟨',', _, rfl, by decide⟩
      · simp

theorem scanPrecision_text (hw : Delimits w) (hdot : ∀ c ∈ w.head?, c ≠ '.') :
    ∃ m, scanPrecision k ⟨n, o.precisionText ++ w⟩ = .ok (o.head.precision, ⟨m, w⟩) := by
  unfold Opening.precisionText Opening.head
  cases o.precision with
  | none =>
      obtain ⟨c, cs, rfl, -⟩ := hw
      have hc : c ≠ '.' := hdot c rfl
      exact ⟨n, by simp [scanPrecision, hc]⟩
  | some amount =>
      cases amount with
      | none => exact ⟨n + 1, scanWidth_nothing .precision hw⟩
      | some a => exact scanWidth_text .precision a hw

theorem delimits_precisionText (hw : Delimits w) : Delimits (o.precisionText ++ w) := by
  unfold Opening.precisionText
  cases o.precision with
  | none => exact hw
  | some a => exact ⟨'.', _, rfl, by decide⟩

/-! ### Flags and the width -/

/-- Zeros at the start of a width are read as flags, and nothing is lost with them. -/
theorem scanWidth_flags (hw : Delimits w) :
    ∃ m, scanWidth .width k (skipWhile isFlag ⟨n, o.flags ++ (o.widthText ++ w)⟩) =
      .ok (o.head.width, ⟨m, w⟩) := by
  unfold Opening.widthText Opening.head
  cases o.width with
  | none =>
      obtain ⟨e, he⟩ := skipWhile_append (n := n) o.areFlags hw.isFlag
      refine ⟨e, ?_⟩
      rw [Option.map_none, Option.getD_none, List.nil_append, he]
      exact scanWidth_nothing .width hw
  | some a =>
      cases a with
      | digits ds =>
          have hrest : (skipWhile isFlag ⟨n, o.flags ++ (ds.digits ++ w)⟩).rest =
              ds.digits.dropWhile isFlag ++ w := by
            rw [skipWhile, List.dropWhile_append_of_pos o.areFlags, List.dropWhile_append]
            split_ifs with hflags
            · rw [List.isEmpty_iff.mp hflags, List.nil_append]
              exact dropWhile_of_head? hw.isFlag
            · rfl
          have hdigits : ∀ d ∈ ds.digits.dropWhile isFlag, d.isDigit = true := by
            intro d hd
            exact ds.areDigits d ((List.dropWhile_suffix isFlag).subset hd)
          have hscan := scanWidth_digits (k := k) .width hdigits hw
            (n := (skipWhile isFlag ⟨n, o.flags ++ (ds.digits ++ w)⟩).place)
          rwa [← hrest] at hscan
      | next =>
          obtain ⟨e, he⟩ := skipWhile_append (n := n) (w := Amount.next.text ++ w) o.areFlags
            (by simp [Amount.text, isFlag])
          rw [Option.map_some, Option.getD_some, he]
          exact scanWidth_text .width .next hw
      | numbered m =>
          obtain ⟨e, he⟩ := skipWhile_append (n := n) (w := (Amount.numbered m).text ++ w)
            o.areFlags (by simp [Amount.text, isFlag])
          rw [Option.map_some, Option.getD_some, he]
          exact scanWidth_text .width (.numbered m) hw

theorem not_space_of_isDigit {c : Char} (h : c.isDigit = true) : c ≠ ' ' := by
  rintro rfl
  revert h
  decide

theorem spaced_eq (hw : Delimits w) :
    ((o.flags ++ (o.widthText ++ w)).takeWhile isFlag).contains ' ' = o.head.spaced := by
  have hnone : ' ' ∉ (o.widthText ++ w).takeWhile isFlag := by
    intro hspace
    unfold Opening.widthText at hspace
    have hnil : w.takeWhile isFlag = [] := takeWhile_of_head? hw.isFlag
    cases hp : o.width with
    | none => simp [hp, hnil] at hspace
    | some a =>
        cases a with
        | digits ds =>
            rw [hp, Option.map_some, Option.getD_some, Amount.text,
              List.takeWhile_append] at hspace
            split_ifs at hspace
            · rw [hnil, List.append_nil] at hspace
              exact not_space_of_isDigit (ds.areDigits _ hspace) rfl
            · have := (List.takeWhile_prefix isFlag).subset hspace
              exact not_space_of_isDigit (ds.areDigits _ this) rfl
        | next => simp [hp, Amount.text, isFlag] at hspace
        | numbered m => simp [hp, Amount.text, isFlag] at hspace
  rw [List.takeWhile_append_of_pos o.areFlags]
  simpa [Opening.head] using fun h => absurd h hnone

theorem unnumbered_append (hds : ∀ d ∈ ds, d.isDigit = true) (hw : Unnumbered w) :
    Unnumbered (ds ++ w) := by
  rw [Unnumbered, List.dropWhile_append_of_pos hds]
  exact hw

theorem unnumbered_cons {c : Char} (hdollar : c ≠ '$') (hcolon : c ≠ ':') (hw : Unnumbered w) :
    Unnumbered (c :: w) := by
  rw [Unnumbered, List.dropWhile_cons]
  split_ifs
  · exact hw
  · simpa using ⟨hdollar, hcolon⟩

theorem unnumbered_flags (hw : Delimits w) : Unnumbered (o.flags ++ (o.widthText ++ w)) := by
  have hwidth : Unnumbered (o.widthText ++ w) := by
    unfold Opening.widthText
    cases o.width with
    | none => exact hw.unnumbered
    | some a =>
        cases a with
        | digits ds => exact unnumbered_append ds.areDigits hw.unnumbered
        | next => simp [Unnumbered, Amount.text]
        | numbered m => simp [Unnumbered, Amount.text]
  have hflags := o.areFlags
  generalize o.flags = fs at hflags ⊢
  induction fs with
  | nil => exact hwidth
  | cons f fs ih =>
      have hf : isFlag f = true := hflags f List.mem_cons_self
      apply unnumbered_cons
      · rintro rfl
        simp [isFlag] at hf
      · rintro rfl
        simp [isFlag] at hf
      · exact ih fun g hg => hflags g (List.mem_cons_of_mem f hg)

/-! ### The position -/

theorem scanPosition_absent (hw : Unnumbered w) :
    scanPosition k ⟨n, w⟩ = .ok (.next, ⟨n, w⟩) := by
  rw [scanPosition]
  by_cases hnil : (digits ⟨n, w⟩).isEmpty = true
  · simp only [hnil, if_true]
  · simp only [hnil, Bool.false_eq_true, if_false]
    have hne : ∀ c cs, (skipDigits ⟨n, w⟩).rest = c :: cs → c ≠ '$' ∧ c ≠ ':' := by
      intro c cs h
      apply hw
      rw [skipDigits, skipWhile] at h
      simp only at h
      rw [h]
      rfl
    split
    · next h => exact absurd rfl (hne _ _ h).1
    · next h => exact absurd rfl (hne _ _ h).2
    · next h => exact absurd rfl (hne _ _ h).2
    · rfl

theorem scanPosition_text (q : WrittenPosition) (hw : Unnumbered w) :
    ∃ m, scanPosition k ⟨n, q.text ++ w⟩ = .ok (q.position, ⟨m, w⟩) := by
  have hdollar : ∀ w : List Char, ∀ c ∈ ('$' :: w).head?, c.isDigit = false := by simp
  have hcolon : ∀ w : List Char, ∀ c ∈ (':' :: w).head?, c.isDigit = false := by simp
  cases q with
  | absent => exact ⟨n, scanPosition_absent hw⟩
  | single m =>
      obtain ⟨e, he⟩ := skipWhile_append (n := n) m.areDigits (hdollar w)
      have htext : (WrittenPosition.single m).text ++ w = m.digits ++ '$' :: w := by
        simp [WrittenPosition.text]
      rw [htext, scanPosition]
      simp only [digits, skipDigits, takeWhile_append m.areDigits (hdollar w), he,
        checkNumber_value]
      exact ⟨e + 1, by simp [m.nonempty, Except.map, WrittenPosition.position]⟩
  | range m l ordered =>
      obtain ⟨e, he⟩ := skipWhile_append (n := n) m.areDigits (hcolon (l.digits ++ '$' :: w))
      obtain ⟨f, hf⟩ := skipWhile_append (n := e + 1) l.areDigits (hdollar w)
      have htext : (WrittenPosition.range m l ordered).text ++ w =
          m.digits ++ ':' :: (l.digits ++ '$' :: w) := by
        simp [WrittenPosition.text]
      rw [htext, scanPosition]
      simp only [digits, skipDigits, takeWhile_append m.areDigits (hcolon _), he]
      obtain ⟨d, ds, hds⟩ := List.exists_cons_of_ne_nil l.nonempty
      have hd : d ≠ '$' := by
        rintro rfl
        have := l.areDigits '$' (hds ▸ List.mem_cons_self)
        revert this
        decide
      have hmne : m.digits.isEmpty = false := by simp [m.nonempty]
      have hlne : l.digits.isEmpty = false := by simp [l.nonempty]
      simp only [hmne, Bool.false_eq_true, if_false]
      split
      · next h => cases h
      · next h =>
          rw [hds] at h
          exact absurd (List.cons.inj (List.cons.inj h).2).1 hd
      · next h =>
          obtain rfl := (List.cons.inj h).2
          simp only [takeWhile_append l.areDigits (hdollar w), hlne, Bool.false_eq_true, if_false,
            hf, checkNumber_value, if_neg (Nat.not_lt.mpr ordered)]
          exact ⟨f + 1, rfl⟩
      · next h => exact absurd rfl (h _)
  | toLast m =>
      obtain ⟨e, he⟩ := skipWhile_append (n := n) m.areDigits (hcolon ('$' :: w))
      have htext : (WrittenPosition.toLast m).text ++ w = m.digits ++ ':' :: '$' :: w := by
        simp [WrittenPosition.text]
      rw [htext, scanPosition]
      simp only [digits, skipDigits, takeWhile_append m.areDigits (hcolon _), he,
        checkNumber_value]
      exact ⟨e + 2, by simp [m.nonempty, Except.map, WrittenPosition.position]⟩

/-! ### The head -/

theorem scanHead_text (hs : isFinal s = true) :
    ∃ m, scanHead k ⟨n, o.text ++ s :: w⟩ = .ok (o.head, ⟨m, s :: w⟩) := by
  obtain ⟨hseparator, hdot⟩ := delimits_separatorText (o := o) (w := w) hs
  have hprecision := delimits_precisionText (o := o) hseparator
  have htext : o.text ++ s :: w = o.position.text ++ (o.flags ++ (o.widthText ++
      (o.precisionText ++ (o.separatorText ++ s :: w)))) := by
    simp [Opening.text]
  obtain ⟨a, ha⟩ := scanPosition_text (k := k) (n := n) o.position (unnumbered_flags hprecision)
  obtain ⟨b, hb⟩ := scanWidth_flags (k := k) (n := a) (o := o) hprecision
  obtain ⟨c, hc⟩ := scanPrecision_text (k := k) (n := b) (o := o) hseparator hdot
  obtain ⟨d, hd⟩ := scanSeparator_text (n := c) (o := o) (w := w) hs
  refine ⟨d, ?_⟩
  rw [htext, scanHead, ha]
  simp only [hb, hc, hd, spaced_eq hprecision]
  rfl

theorem Numeral.percent_notMem (m : Numeral) : '%' ∉ m.digits := by
  intro h
  have := m.areDigits _ h
  revert this
  decide

theorem Amount.percent_notMem (a : Amount) : '%' ∉ a.text := by
  cases a with
  | digits ds => exact ds.percent_notMem
  | next => decide
  | numbered m => simpa [Amount.text] using m.percent_notMem

theorem Opening.percent_notMem (o : Opening) : '%' ∉ o.text := by
  have hposition : '%' ∉ o.position.text := by
    cases o.position with
    | absent => exact List.not_mem_nil
    | single m => simpa [WrittenPosition.text] using m.percent_notMem
    | range m l _ =>
        simpa [WrittenPosition.text] using ⟨m.percent_notMem, l.percent_notMem⟩
    | toLast m => simpa [WrittenPosition.text] using m.percent_notMem
  have hflags : '%' ∉ o.flags := by
    intro h
    have := o.areFlags _ h
    revert this
    decide
  have hwidth : '%' ∉ o.widthText := by
    unfold Opening.widthText
    cases o.width with
    | none => exact List.not_mem_nil
    | some a => exact a.percent_notMem
  have hprecision : '%' ∉ o.precisionText := by
    unfold Opening.precisionText
    cases o.precision with
    | none => exact List.not_mem_nil
    | some amount =>
        cases amount with
        | none => decide
        | some a => simpa using a.percent_notMem
  have hseparator : '%' ∉ o.separatorText := by
    unfold Opening.separatorText
    cases o.separator with
    | none => exact List.not_mem_nil
    | some separator =>
        obtain ⟨size, char⟩ := separator
        cases size with
        | absent => cases char <;> decide
        | next => cases char <;> decide
        | digits ds => cases char <;> simpa [GroupSize.text] using ds.percent_notMem
  simp [Opening.text, hposition, hflags, hwidth, hprecision, hseparator]

/-- What follows `%` in a directive is not another `%`. -/
theorem ne_percent (hs : isFinal s = true) : ∀ c ∈ (o.text ++ s :: w).head?, c ≠ '%' := by
  intro c hc
  have hs : s ≠ '%' := (isFinal_iff.mp hs).2.2.2.2.2.2.2.2
  cases ht : o.text with
  | nil =>
      rw [ht] at hc
      cases hc
      exact hs
  | cons d ds =>
      rw [ht] at hc
      cases hc
      rintro rfl
      exact o.percent_notMem (ht ▸ List.mem_cons_self)

end CatalogLint
