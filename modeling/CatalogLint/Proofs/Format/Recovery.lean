import Mathlib.Data.List.TakeWhile
import CatalogLint.Proofs.Format.Denotation

/-!
# Recovering the wording

What scanning accepts has been written down as a wording (`scan_wording`): each step of it has
consumed the text of some part, of which it keeps the meaning. Reading then finds no fault only
where the grammar leaves none, so that the accepted strings are the wordings of regular
derivations whose references can be satisfied together (`FormatString.parse_ok_iff`).
-/
namespace CatalogLint
open Cursor Use

variable {use : NumberUse} {k n : ℕ} {c d : Cursor} {cs ds : List Char}

/-! ### Text -/

/-- The text up to the next directive, or all of it. -/
theorem exists_text (n : ℕ) (cs : List Char) : ∃ t : List Char, cs = t.flatMap escape ++
    (nextDirective? n cs).elim [] fun q => '%' :: q.2 := by
  fun_induction nextDirective? n cs with
  | case1 => exact ⟨[], rfl⟩
  | case2 n cs ih =>
      obtain ⟨t, ht⟩ := ih
      exact ⟨'%' :: t, congrArg ('%' :: '%' :: ·) ht⟩
  | case3 => exact ⟨[], rfl⟩
  | case4 n c cs hdouble hc ih =>
      obtain ⟨t, ht⟩ := ih
      have hescape : escape c = [c] := if_neg fun he => hc he
      exact ⟨c :: t, by rw [List.flatMap_cons, hescape]; exact congrArg (c :: ·) ht⟩

theorem exists_delimiter (h : scanDelimiter k n cs = .ok d) :
    ∃ t : List Char, cs = t.flatMap escape ++ '%' :: ')' :: d.rest := by
  fun_induction scanDelimiter k n cs with
  | case1 => cases h
  | case2 => cases h
  | case3 n cs ih =>
      obtain ⟨t, rfl⟩ := ih h
      exact ⟨'%' :: t, rfl⟩
  | case4 =>
      cases h
      exact ⟨[], rfl⟩
  | case5 => cases h
  | case6 n c cs hlast hdouble hclose hother ih =>
      obtain ⟨t, rfl⟩ := ih h
      have hescape : escape c = [c] := by
        apply if_neg
        rintro rfl
        obtain ⟨e, es, hes⟩ := List.exists_cons_of_ne_nil
          (show t.flatMap escape ++ '%' :: ')' :: d.rest ≠ [] by simp)
        exact hother e es rfl hes
      exact ⟨c :: t, by rw [List.flatMap_cons, hescape]; rfl⟩

/-! ### Heads -/

theorem Cursor.rest_eq (c : Cursor) : c.rest = c.digits ++ c.skipDigits.rest :=
  List.takeWhile_append_dropWhile.symm

/-- The digits ahead, if there are any. -/
def Cursor.numeral (c : Cursor) (h : c.digits ≠ []) : Numeral :=
  ⟨c.digits, fun _ hd => List.mem_takeWhile_imp hd, h⟩

variable {a : Numeral}

/-- A number that passes its check is the number of an argument. -/
theorem exists_argNumber {v : ℕ} (h : checkNumber use k n (decimal a.digits) = .ok v) :
    ∃ b : ArgNumber, b.digits = a.digits ∧ b.value = v := by
  rw [checkNumber] at h
  split_ifs at h with hzero hlarge
  cases h
  exact ⟨⟨a, by omega, by omega⟩, rfl, rfl⟩

theorem exists_argNumber_map {α : Type} {f : ℕ → α} {y : α}
    (h : (checkNumber use k n (decimal a.digits)).map f = .ok y) :
    ∃ b : ArgNumber, b.digits = a.digits ∧ f b.value = y := by
  cases hcheck : checkNumber use k n (decimal a.digits) with
  | error e =>
      rw [hcheck] at h
      cases h
  | ok v =>
      rw [hcheck] at h
      obtain ⟨b, hb, rfl⟩ := exists_argNumber hcheck
      cases h
      exact ⟨b, hb, rfl⟩

theorem exists_position {p : Position} (h : scanPosition k c = .ok (p, d)) :
    ∃ q : WrittenPosition, q.position = p ∧ c.rest = q.text ++ d.rest := by
  have absent : (.ok (.next, c) : Except Failure (Position × Cursor)) = .ok (p, d) →
      ∃ q : WrittenPosition, q.position = p ∧ c.rest = q.text ++ d.rest := by
    rintro ⟨⟩
    exact ⟨.absent, rfl, rfl⟩
  rw [scanPosition] at h
  dsimp only at h
  by_cases hdigits : c.digits = []
  · rw [hdigits] at h
    exact absent h
  have hc := c.rest_eq
  rw [if_neg (by simpa using hdigits)] at h
  split at h
  · next w hw =>
      obtain ⟨m, hm, hp⟩ := exists_argNumber_map (a := c.numeral hdigits) h
      cases hp
      exact ⟨.single m, rfl, by rw [hc, hw]; simp [WrittenPosition.text, hm, numeral]⟩
  · next w hw =>
      obtain ⟨m, hm, hp⟩ := exists_argNumber_map (a := c.numeral hdigits) h
      cases hp
      exact ⟨.toLast m, rfl, by rw [hc, hw]; simp [WrittenPosition.text, hm, numeral]⟩
  · next w _ hw =>
      generalize he : (⟨c.skipDigits.place + 1, w⟩ : Cursor) = e at h
      by_cases hlast : e.digits = []
      · rw [hlast] at h
        exact absent h
      have hrest := e.rest_eq
      rw [if_neg (by simpa using hlast)] at h
      split at h
      · next z hz =>
          split at h
          · cases h
          · cases h
          · next l m hl hm =>
              obtain ⟨l, hdl, rfl⟩ := exists_argNumber (a := e.numeral hlast) hl
              obtain ⟨m, hdm, rfl⟩ := exists_argNumber (a := c.numeral hdigits) hm
              split_ifs at h with hle
              cases h
              refine ⟨.range m l (Nat.le_of_not_lt hle), rfl, ?_⟩
              rw [hz] at hrest
              have hw' : w = e.digits ++ '$' :: z := by
                rw [← hrest, ← he]
              rw [hc, hw, hw']
              simp [WrittenPosition.text, hdl, hdm, numeral]
      · exact absent h
  · exact absent h

/-- An amount, if there is one; digits leave no reference. -/
theorem exists_amount {r : Option Reference} (h : scanWidth use k c = .ok (r, d)) :
    ∃ q : Option Amount, q.bind Amount.reference? = r ∧
      c.rest = (q.map Amount.text).getD [] ++ d.rest := by
  rw [scanWidth] at h
  by_cases hdigits : c.digits = []
  · rw [if_neg (by simp [hdigits])] at h
    split at h
    · next w hw =>
        generalize he : (⟨c.place + 1, w⟩ : Cursor) = e at h
        dsimp only at h
        have hnext : (.ok (some .next, e) : Except Failure (Option Reference × Cursor)) =
            .ok (r, d) → ∃ q : Option Amount, q.bind Amount.reference? = r ∧
              c.rest = (q.map Amount.text).getD [] ++ d.rest := by
          rintro ⟨⟩
          exact ⟨some .next, rfl, by rw [hw, ← he]; rfl⟩
        by_cases hnumber : e.digits = []
        · rw [hnumber] at h
          exact hnext h
        have hrest := e.rest_eq
        rw [if_neg (by simpa using hnumber)] at h
        split at h
        · next z hz =>
            obtain ⟨m, hm, hp⟩ := exists_argNumber_map (a := e.numeral hnumber) h
            cases hp
            refine ⟨some (.numbered m), rfl, ?_⟩
            rw [hz] at hrest
            have hw' : w = e.digits ++ '$' :: z := by
              rw [← hrest, ← he]
            rw [hw, hw']
            simp [Amount.text, hm, numeral]
        · exact hnext h
    · cases h
      exact ⟨none, rfl, rfl⟩
  · rw [if_pos (by simpa using hdigits)] at h
    cases h
    exact ⟨some (.digits (c.numeral hdigits)), rfl, c.rest_eq⟩

theorem exists_precision {r : Option Reference} (h : scanPrecision k c = .ok (r, d)) :
    ∃ q : Option (Option Amount), (q.bind fun a => a.bind Amount.reference?) = r ∧
      c.rest = (q.map fun a => '.' :: (a.map Amount.text).getD []).getD [] ++ d.rest := by
  rw [scanPrecision] at h
  split at h
  · next w hw =>
      obtain ⟨q, hq, hrest⟩ := exists_amount h
      exact ⟨some q, hq, by rw [hw, show w = _ from hrest]; rfl⟩
  · cases h
    exact ⟨none, rfl, rfl⟩

theorem exists_groupSize {w : List Char} (h : c.rest = ',' :: w) :
    ∃ g : GroupSize, ∃ d : Cursor, w = g.text ++ d.rest ∧ scanSeparator c =
      match d.rest with
      | '?' :: rest => ((g.numeral?.isNone, true), ⟨d.place + 1, rest⟩)
      | _ => ((g.numeral?.isNone, false), d) := by
  rw [scanSeparator, h]
  by_cases hdigits : digits ⟨c.place + 1, w⟩ = []
  · cases w with
    | nil => exact ⟨.absent, ⟨c.place + 1, []⟩, rfl, rfl⟩
    | cons x z =>
        by_cases hx : x = '*'
        · subst hx
          exact ⟨.next, ⟨c.place + 1 + 1, z⟩, rfl, rfl⟩
        · refine ⟨.absent, ⟨c.place + 1, x :: z⟩, rfl, ?_⟩
          simp only [hdigits]
          simp [hx]
          rfl
  · refine ⟨.digits (numeral _ hdigits), skipDigits ⟨c.place + 1, w⟩, rest_eq ⟨_, w⟩, ?_⟩
    have hne : (!(digits ⟨c.place + 1, w⟩).isEmpty) = true := by simpa using hdigits
    simp only [hne, if_true]
    rfl

theorem exists_separator (c : Cursor) : ∃ q : Option (GroupSize × Bool),
    ((q.map fun s => s.1.numeral?.isNone).getD false, (q.map fun s => s.2).getD false) =
      (scanSeparator c).1 ∧
    c.rest = (q.map fun s => ',' :: s.1.text ++ if s.2 then ['?'] else []).getD [] ++
      (scanSeparator c).2.rest := by
  by_cases hcomma : ∃ w, c.rest = ',' :: w
  · obtain ⟨w, hw⟩ := hcomma
    obtain ⟨g, d, hd, hscan⟩ := exists_groupSize hw
    rw [hscan]
    split
    · next z hz => exact ⟨some (g, true), rfl, by rw [hw, hd, hz]; simp⟩
    · exact ⟨some (g, false), rfl, by rw [hw, hd]; simp⟩
  · rw [scanSeparator]
    split
    · next w hw => exact absurd ⟨w, hw⟩ hcomma
    · exact ⟨none, rfl, rfl⟩

theorem exists_opening {head : Head} (h : scanHead k c = .ok (head, d)) :
    ∃ o : Opening, o.head = head ∧ c.rest = o.text ++ d.rest := by
  rw [scanHead] at h
  split at h
  · cases h
  · next position e hposition =>
      split at h
      · cases h
      · next width f hwidth =>
          split at h
          · cases h
          · next precision g hprecision =>
              obtain ⟨p, rfl, hp⟩ := exists_position hposition
              obtain ⟨w, rfl, hw⟩ := exists_amount hwidth
              obtain ⟨q, rfl, hq⟩ := exists_precision hprecision
              obtain ⟨s, hs, hrest⟩ := exists_separator g
              have hflags : e.rest = e.rest.takeWhile isFlag ++ (e.skipWhile isFlag).rest :=
                List.takeWhile_append_dropWhile.symm
              have areFlags : ∀ f ∈ e.rest.takeWhile isFlag, isFlag f = true :=
                fun _ hf => List.mem_takeWhile_imp hf
              generalize e.rest.takeWhile isFlag = flags at h hflags areFlags
              generalize scanSeparator g = separator at h hs hrest
              obtain ⟨⟨groupSize, separating⟩, z⟩ := separator
              cases hs
              cases h
              refine ⟨⟨p, flags, areFlags, w, q, s⟩, rfl, ?_⟩
              rw [hp, hflags, hw, hq, hrest]
              simp [Opening.text, Opening.widthText, Opening.precisionText,
                Opening.separatorText]

/-- The text before a directive, and the directive up to its specifier. -/
theorem exists_directive {start : ℕ} {head : Head}
    (h₁ : nextDirective? c.place c.rest = some (start, cs))
    (h₂ : scanHead k ⟨n, cs⟩ = .ok (head, d)) :
    ∃ t : List Char, ∃ o : Opening, o.head = head ∧
      c.rest = t.flatMap escape ++ '%' :: (o.text ++ d.rest) := by
  obtain ⟨t, ht⟩ := exists_text c.place c.rest
  obtain ⟨o, ho, hrest⟩ := exists_opening h₂
  refine ⟨t, o, ho, ht.trans ?_⟩
  rw [h₁, ← hrest]
  rfl

/-! ### Reading one directive -/

variable {l : Level} {us : List Use} {spec : FormatSpec} {head : Head} {rest body : Directives}
  {start opening stop : ℕ}

/-- Reading a directive for plain values goes on, unless there is no argument for it. -/
theorem Directives.read_value_cases (start : ℕ) (head : Head) (kinds : Kinds) (stop : ℕ)
    (rest : Directives) (l : Level) :
    let d := Directives.value start head kinds stop rest
    (∃ fault, d.read l = .fail [.start start, .fault (stop - 1)] fault) ∨
    ∃ l', l.add head (.plain kinds) = some l' ∧
      d.read l = (rest.read l').after [.start start, .stop (stop - 1)] := by
  dsimp only
  rw [Directives.read]
  cases l.add head (.plain kinds) with
  | none => exact .inl ⟨_, rfl⟩
  | some l' => exact .inr ⟨l', rfl, rfl⟩

/-- Reading a compound directive fails in its body or at its end, or goes on. -/
theorem Directives.read_compound_cases (start : ℕ) (head : Head) (opening : ℕ) (body : Directives)
    (stop : ℕ) (rest : Directives) (l : Level) :
    let d := Directives.compound start head opening body stop rest
    let inner := body.read .outset
    (∃ fault, inner.result = .error fault ∧
      d.read l = .fail (.start start :: inner.marks ++ [.fault opening]) fault) ∨
    ∃ f, inner.result = .ok f ∧
      ((∃ place fault, (place = stop - 2 ∨ place = stop - 1) ∧
        d.read l = .fail (.start start :: inner.marks ++ [.fault place]) fault) ∨
      ∃ t l', f.elementShape (l.directives + 1) = .ok t ∧ l.add head t = some l' ∧
        d.read l = (rest.read l').after (.start start :: inner.marks ++ [.stop (stop - 1)])) := by
  simp only [Directives.read, Reading.after]
  cases hinner : (body.read .outset).result with
  | error e => exact .inl ⟨e, rfl, rfl⟩
  | ok f =>
      refine .inr ⟨f, rfl, ?_⟩
      dsimp only
      cases hshape : f.elementShape (l.directives + 1) with
      | error e => exact .inl ⟨_, _, .inl rfl, rfl⟩
      | ok t =>
          dsimp only
          cases hadd : l.add head t with
          | none => exact .inl ⟨_, _, .inr rfl, rfl⟩
          | some l' => exact .inr ⟨t, l', rfl, hadd, rfl⟩

/-- Reading a compound directive without an end fails, in its body if there is a fault in it. -/
theorem Directives.read_broken_cases (start opening : ℕ) (body : Directives) (l : Level) :
    let inner := body.read .outset
    ∃ fault, (inner.result = .error fault ∨ ∃ f, inner.result = .ok f) ∧
      (Directives.broken start opening body).read l =
        .fail (.start start :: inner.marks ++ [.fault opening]) fault := by
  simp only [Directives.read, Reading.after]
  cases (body.read .outset).result with
  | error e => exact ⟨e, .inl rfl, rfl⟩
  | ok f => exact ⟨.unmatchedOpen, .inr ⟨f, rfl⟩, rfl⟩

theorem read_value {kinds : Kinds}
    (h : ((Directives.value start head kinds stop rest).read l).result = .ok spec) :
    ∃ l', l.add head (.plain kinds) = some l' ∧ (rest.read l').result = .ok spec := by
  rcases Directives.read_value_cases start head kinds stop rest l with
    ⟨fault, hread⟩ | ⟨l', hadd, hread⟩
  · rw [hread] at h
    cases h
  · rw [hread] at h
    exact ⟨l', hadd, h⟩

theorem read_compound
    (h : ((Directives.compound start head opening body stop rest).read l).result = .ok spec) :
    ∃ inner t l', (body.read .outset).result = .ok inner ∧
      inner.elementShape (l.directives + 1) = .ok t ∧ l.add head t = some l' ∧
      (rest.read l').result = .ok spec := by
  rcases Directives.read_compound_cases start head opening body stop rest l with
    ⟨fault, -, hread⟩ | ⟨inner, hinner, ⟨place, fault, -, hread⟩ | ⟨t, l', hshape, hadd, hread⟩⟩
  · rw [hread] at h
    cases h
  · rw [hread] at h
    cases h
  · rw [hread] at h
    exact ⟨inner, t, l', hinner, hshape, hadd, h⟩

theorem read_broken : ((Directives.broken start opening body).read l).result ≠ .ok spec := by
  obtain ⟨fault, -, hread⟩ := Directives.read_broken_cases start opening body l
  rw [hread]
  intro h
  cases h

/-! ### Levels -/

/-- What is written after a level: nothing at the outermost one, and inside a compound directive
the closing and whatever follows it. -/
def Remainder (inCompound : Bool) (after : Option Cursor) (tail : List Char) : Prop :=
  if inCompound then
    ∃ closing : Closing, ∃ d, after = some d ∧ tail = closing.text ++ d.rest
  else tail = []

/-- A level with text before its directives. -/
def Wording.withText (t : List Char) (w : Wording) : Wording :=
  t.foldr Wording.text w

theorem Wording.chars_withText (t : List Char) (w : Wording) :
    (w.withText t).chars = t.flatMap escape ++ w.chars := by
  induction t with
  | nil => rfl
  | cons c cs ih => rw [List.flatMap_cons, List.append_assoc, ← ih]; rfl

theorem Wording.spells_withText (t : List Char) {w : Wording} {ds : Directives}
    (h : w.format.Spells ds) : (w.withText t).format.Spells ds := by
  induction t with
  | nil => exact h
  | cons c cs ih => exact .text ih

/-- Reading the directives, after whatever others, finds no fault. -/
def Directives.Readable (d : Directives) : Prop :=
  ∃ l spec, (d.read l).result = .ok spec

/-- What can be read has been written as a wording. -/
theorem scan_wording (b : Bool) (k : ℕ) (c : Cursor) (h : (scan b k c).directives.Readable) :
    ∃ w : Wording, ∃ tail, w.format.Spells (scan b k c).directives ∧ c.rest = w.chars ++ tail ∧
      Remainder b (scan b k c).after tail := by
  fun_induction scan b k c with
  | case1 b count c hnone =>
      cases b with
      | true =>
          obtain ⟨l, spec, h⟩ := h
          cases h
      | false =>
          obtain ⟨t, ht⟩ := exists_text c.place c.rest
          refine ⟨Wording.done.withText t, [], Wording.spells_withText t .done, ?_, rfl⟩
          rw [Wording.chars_withText, ht, hnone]
          simp [Wording.chars]
  | case4 b count c start cs h₁ head d h₂ s rest h₃ e he kinds hk r ih =>
      obtain ⟨l, spec, h⟩ := h
      obtain ⟨l', -, hread⟩ := read_value h
      obtain ⟨w, tail, hw, hrest, htail⟩ := ih ⟨l', spec, hread⟩
      obtain ⟨t, o, rfl, hc⟩ := exists_directive h₁ h₂
      let value : Wording := .value o ⟨s, kinds, hk⟩ w
      refine ⟨value.withText t, tail, Wording.spells_withText t ?_, ?_, htail⟩
      · rw [← o.head_preamble]
        exact .value hw
      · have hrest' : rest = w.chars ++ tail := hrest
        rw [hc, h₃, hrest', Wording.chars_withText]
        simp [value, Wording.chars]
  | case6 b count c start cs h₁ head d h₂ rest f r h₃ e he hs body h₄ hf ihbody _ ih =>
      obtain ⟨l, spec, h⟩ := h
      obtain ⟨inner, t, l', hinner, -, -, hread⟩ := read_compound h
      obtain ⟨v, tail, hv, hbody, closing, g, hg, rfl⟩ := ihbody ⟨.outset, inner, hinner⟩
      obtain rfl : f = g := Option.some.inj (h₄.symm.trans hg)
      obtain ⟨w, tail, hw, hrest, htail⟩ := ih ⟨l', spec, hread⟩
      obtain ⟨t, o, rfl, hc⟩ := exists_directive h₁ h₂
      let compound : Wording := .compound o v closing w
      refine ⟨compound.withText t, tail, Wording.spells_withText t ?_, ?_, htail⟩
      · rw [← o.head_preamble]
        exact .compound hv hw
      · have hbody' : rest = v.chars ++ (closing.text ++ f.rest) := hbody
        rw [hc, h₃, hbody', hrest, Wording.chars_withText]
        simp [compound, Wording.chars]
  | case7 count c start cs h₁ head d h₂ rest h₃ e he hs hne =>
      obtain ⟨t, o, -, hc⟩ := exists_directive h₁ h₂
      refine ⟨Wording.done.withText t, _, Wording.spells_withText t .done, ?_, ⟨o, none⟩, e, rfl,
        rfl⟩
      rw [hc, h₃, Wording.chars_withText]
      simp [Wording.chars, Closing.text, e]
  | case10 count c start cs h₁ head d h₂ rest f h₃ e he hs hopen hclose h₅ =>
      obtain ⟨t, o, -, hc⟩ := exists_directive h₁ h₂
      obtain ⟨delimiter, hdelimiter⟩ := exists_delimiter h₅
      refine ⟨Wording.done.withText t, _, Wording.spells_withText t .done, ?_,
        ⟨o, some delimiter⟩, f, rfl, rfl⟩
      have hdelimiter' : rest = delimiter.flatMap escape ++ '%' :: ')' :: f.rest := hdelimiter
      rw [hc, h₃, Wording.chars_withText, hdelimiter']
      simp [Wording.chars, Closing.text]
  | case5 =>
      obtain ⟨l, spec, h⟩ := h
      exact absurd h read_broken
  -- the other cases end with a fault
  | _ =>
      obtain ⟨l, spec, h⟩ := h
      cases h

/-! ### Regularity -/

variable {t : Shape} {l' : Level} {f : Format} {ms : List Mention} {admits : Value → Prop}

theorem Level.convert_unbounded {p : Position} (hused : l.used = none)
    (h : l.convert t p = some l') : p ≠ .next ∧ l'.used = none := by
  cases p with
  | next =>
      rw [Level.convert, refer, hused] at h
      cases h
  | single m =>
      cases h
      exact ⟨by simp, by simp [hused]⟩
  | range m n =>
      cases h
      exact ⟨by simp, by simp [hused]⟩
  | toLast m =>
      cases h
      exact ⟨by simp, rfl⟩

theorem Level.converts_unbounded {qs : List (Position × Kinds)} (hused : l.used = none)
    (h : l.converts qs = some l') : (∀ q ∈ qs, q.1 ≠ .next) ∧ l'.used = none := by
  induction qs generalizing l with
  | nil =>
      cases h
      exact ⟨nofun, hused⟩
  | cons q qs ih =>
      rw [Level.converts, List.foldlM_cons] at h
      obtain ⟨a, ha, h⟩ := Option.bind_eq_some_iff.mp h
      obtain ⟨hq, ha⟩ := convert_unbounded hused ha
      obtain ⟨hqs, hl'⟩ := ih ha h
      exact ⟨List.forall_mem_cons.mpr ⟨hq, hqs⟩, hl'⟩

/-- After a reference to all arguments that follow, there is no argument after the last one. -/
theorem Level.add_unbounded (hused : l.used = none) (h : l.add head t = some l') :
    ∀ m ∈ head.mentions admits, m.position ≠ .next := by
  rw [add_eq] at h
  obtain ⟨b, hb, -⟩ := Option.bind_eq_some_iff.mp h
  obtain ⟨a, ha, hb⟩ := Option.bind_eq_some_iff.mp hb
  obtain ⟨haux, ha⟩ := converts_unbounded hused ha
  obtain ⟨hposition, -⟩ := convert_unbounded ha hb
  intro m hm
  rcases List.mem_append.mp hm with hm | hm
  · obtain ⟨q, hq, rfl⟩ := List.mem_map.mp hm
    exact haux q hq
  · obtain rfl := List.mem_singleton.mp hm
    exact hposition

theorem Use.ne_toLast_of_all_isBounded {n : ℕ} (h : (number n ms).all isBounded = true) :
    ∀ m ∈ ms, ∀ k, m.position ≠ .toLast k := by
  intro m hm k hk
  obtain ⟨j, hj⟩ := exists_mem_number hm n
  have hbounded := List.all_eq_true.mp h _ hj
  rw [isBounded, Mention.use, hk] at hbounded
  cases hbounded

theorem orderly_of_ne_toLast (h : ∀ m ∈ ms, ∀ k, m.position ≠ .toLast k) : Orderly ms := by
  induction ms with
  | nil => trivial
  | cons m ms ih =>
      obtain ⟨hm, hms⟩ := List.forall_mem_cons.mp h
      exact ⟨fun ⟨k, hk⟩ => absurd hk (hm k), ih hms⟩

theorem Orderly.append_of {ms' : List Mention} (h : Orderly ms) (h' : Orderly ms')
    (hnext : (∀ m ∈ ms, ∀ k, m.position ≠ .toLast k) ∨ ∀ m ∈ ms', m.position ≠ .next) :
    Orderly (ms ++ ms') := by
  induction ms with
  | nil => exact h'
  | cons m ms ih =>
      obtain ⟨hm, hms⟩ := h
      refine ⟨fun hlast m' hm' => ?_, ih hms ?_⟩
      · rcases List.mem_append.mp hm' with hm' | hm'
        · exact hm hlast m' hm'
        · obtain ⟨k, hk⟩ := hlast
          rcases hnext with hnext | hnext
          · exact absurd hk (hnext m List.mem_cons_self k)
          · exact hnext m' hm'
      · exact hnext.imp_left fun hnext => (List.forall_mem_cons.mp hnext).2

theorem Head.orderly_mentions (head : Head) : Orderly (head.mentions admits) := by
  have haux : ∀ m ∈ head.auxiliary.map fun q => Mention.ofKinds q.1 q.2,
      ∀ k, m.position ≠ .toLast k := by
    intro m hm
    obtain ⟨q, hq, rfl⟩ := List.mem_map.mp hm
    exact head.auxiliary_ne_toLast hq
  exact (orderly_of_ne_toLast haux).append_of ⟨nofun, trivial⟩ (.inl haux)

/-- A directive that is read goes before references in order. -/
theorem Level.Holds.orderly (hl : l.Holds us) (hadd : l.add head t = some l') (hms : Orderly ms)
    (hnext : (us ++ number (reach us) (head.mentions admits)).all isBounded = true ∨
      ∀ m ∈ ms, m.position ≠ .next) :
    Orderly (head.mentions admits ++ ms) ∧
      (us.all isBounded = true ∨ ∀ m ∈ head.mentions admits ++ ms, m.position ≠ .next) := by
  constructor
  · apply head.orderly_mentions.append_of hms
    refine hnext.imp_left fun hall => ?_
    rw [List.all_append, Bool.and_eq_true] at hall
    exact ne_toLast_of_all_isBounded hall.2
  · cases hall : us.all isBounded with
    | true => exact .inl rfl
    | false =>
        have hused : l.used = none := by rw [hl.used, hall]; rfl
        have hms : ∀ m ∈ ms, m.position ≠ .next := by
          rw [List.all_append, hall] at hnext
          exact hnext.resolve_left nofun
        exact .inr (List.forall_mem_append.mpr ⟨add_unbounded hused hadd, hms⟩)

/-- What is read without a fault is regular. -/
theorem Format.Spells.regular {d : Directives} (h : f.Spells d) (hl : l.Holds us)
    (hread : (d.read l).result = .ok spec) : f.ElementsRegular ∧ Orderly f.mentions ∧
      (us.all isBounded = true ∨ ∀ m ∈ f.mentions, m.position ≠ .next) := by
  induction h generalizing l us spec with
  | done => exact ⟨trivial, trivial, .inr nofun⟩
  | text _ ih => exact ih hl hread
  | @value p s rest d start stop _ ih =>
      obtain ⟨l', hadd, hread⟩ := read_value hread
      have hholds := hl.add (.plain (Kinds.conversion_of_specifierKinds s.known))
        (fun x => x.fits_plain s.kinds) p.valid hadd
      obtain ⟨hreg, hord, hnext⟩ := ih hholds hread
      exact ⟨hreg, hl.orderly hadd hord hnext⟩
  | @compound p body rest delimiter e d start opening stop hspells _ ihbody ih =>
      obtain ⟨inner, t, l', hinner, hshape, hadd, hread⟩ := read_compound hread
      obtain ⟨hbody, hordbody, -⟩ := ihbody Level.holds_outset hinner
      have hbuilt := hspells.read hbody hordbody Level.holds_outset (.inl rfl)
      rw [hinner] at hbuilt
      obtain ⟨hall, k, hk, rfl⟩ := FormatSpec.elementShape_ok hbuilt hshape
      obtain ⟨hsettled, hfits⟩ := hbuilt.compound hall hk
      have hreach : reach body.uses = 1 ∨ reach body.uses = 2 :=
        (Kinds.arity_eq_some hk).imp (fun h => h.2) fun h => h.2
      obtain ⟨hreg, hord, hnext⟩ := ih (hl.add hsettled hfits p.valid hadd) hread
      exact ⟨⟨hbody, hordbody, hall, hreach, hreg⟩, hl.orderly hadd hord hnext⟩

/-- Where nothing is carried by the end of a compound directive, its two characters are there. -/
theorem Wording.Bare.closed {w : Wording} (hw : w.Bare)
    (h : w.format.Spells (.compound start head opening body stop rest)) :
    ['%', ')'] <:+: w.chars := by
  induction w with
  | done => cases h
  | text c rest ih =>
      cases h with
      | text h => exact (ih hw h).trans (List.suffix_append (escape c) rest.chars).isInfix
  | value o s rest ih => cases h
  | compound o inner closing rest _ _ =>
      have hend : ['%', ')'] <:+ closing.text := by
        obtain ⟨o, delimiter⟩ := closing
        have ho : o.text = [] := hw.1
        cases delimiter with
        | none => exact ⟨[], by simp [Closing.text, ho]⟩
        | some delimiter =>
            exact ⟨'%' :: '|' :: delimiter.flatMap escape, by simp [Closing.text, ho]⟩
      exact hend.isInfix.trans
        (List.infix_append ('%' :: o.text ++ '(' :: inner.chars) closing.text rest.chars)

namespace FormatString
variable {s : String}

/-- A regular string has the normal form of a list that says what its references do, or no
arguments satisfy them and they are refused as contradictory. -/
theorem result_cases (h : f.Spells (.ofText s.toList)) (hf : f.Regular) :
    (∃ spec l, (parse s).result = .ok spec ∧ ArgList.Built f.uses l ∧
      spec.arguments = l.normalize) ∨
    ((parse s).result = .error .conflictingUses ∧ ∀ xs, ¬ f.Denotes xs) := by
  have hread := h.read hf.1 hf.2 Level.holds_outset (.inl rfl)
  rw [parse, ofText]
  cases hresult : ((Directives.ofText s.toList).read .outset).result with
  | error e =>
      rw [hresult] at hread
      obtain ⟨rfl, hnone⟩ := hread
      exact .inr ⟨rfl, hnone⟩
  | ok spec =>
      rw [hresult] at hread
      exact .inl ⟨_, spec.arguments, rfl, hread, rfl⟩

/-- An accepted string is the wording of a regular derivation. -/
theorem exists_wording (h : (parse s).result = .ok spec) : ∃ w : Wording, s.toList = w.chars ∧
    w.format.Regular ∧ w.format.Spells (.ofText s.toList) := by
  rw [parse, ofText] at h
  cases hread : ((Directives.ofText s.toList).read .outset).result with
  | error e =>
      simp only [hread] at h
      cases h
  | ok f =>
      obtain ⟨w, tail, hspells, hchars, htail⟩ :=
        scan_wording false 0 ⟨0, s.toList⟩ ⟨.outset, f, hread⟩
      cases htail
      obtain ⟨hreg, hord, -⟩ := hspells.regular Level.holds_outset hread
      exact ⟨w, by simpa using hchars, ⟨hreg, hord⟩, hspells⟩

/-- The list of an accepted string is the normal form of one that says what references do. -/
theorem exists_built (h : (parse s).result = .ok spec) :
    ∃ us l, ArgList.Built us l ∧ spec.arguments = l.normalize := by
  obtain ⟨w, -, hregular, hspells⟩ := exists_wording h
  rcases result_cases hspells hregular with ⟨spec', l, hok, hl, hspec⟩ | ⟨herror, -⟩
  · rw [h] at hok
    cases hok
    exact ⟨w.format.uses, l, hl, hspec⟩
  · rw [h] at herror
    cases herror

/-- The accepted strings are the wordings of the regular derivations whose references some
arguments satisfy together. -/
theorem parse_ok_iff (s : String) : (∃ spec, (parse s).result = .ok spec) ↔
    ∃ w : Wording, s.toList = w.chars ∧ w.format.Regular ∧ ∃ xs, w.format.Denotes xs := by
  constructor
  · rintro ⟨spec, h⟩
    obtain ⟨w, hchars, hregular, hspells⟩ := exists_wording h
    refine ⟨w, hchars, hregular, ?_⟩
    rcases result_cases hspells hregular with ⟨-, l, -, hl, -⟩ | ⟨herror, -⟩
    · exact hl.exists_satisfied
    · rw [h] at herror
      cases herror
  · rintro ⟨w, hchars, hregular, xs, hxs⟩
    have hspells : w.format.Spells (.ofText s.toList) := hchars ▸ w.spells_ofText
    rcases result_cases hspells hregular with ⟨spec, -, hok, -⟩ | ⟨-, hnone⟩
    · exact ⟨spec, hok⟩
    · exact absurd hxs (hnone xs)

/-- The end of a compound directive need not be bare: here a width stands in it. -/
theorem parse_ok_width_in_closing :
    (∃ spec, (parse "%(%d%5)").result = .ok spec) ∧
      ¬ ∃ w : Wording, w.Bare ∧ "%(%d%5)".toList = w.chars := by
  constructor
  · let numbers : Shape := .plain (.ofList [.bool, .integer, .char])
    let sequences : Shape := .compound .sequences [⟨1, .required, numbers⟩] []
    exact ⟨⟨1, 1, .finite [⟨1, .required, sequences⟩]⟩, by decide +kernel⟩
  · rintro ⟨w, hbare, hchars⟩
    let head : Head := ⟨.next, false, none, none, false, false⟩
    have hscan : Directives.ofText "%(%d%5)".toList = .compound 0 head 2
        (.value 2 head (.ofList [.bool, .integer, .char]) 4 .done) 7 .done := by
      decide +kernel
    have hspells := w.spells_ofText
    rw [← hchars, hscan] at hspells
    have hclosed := hbare.closed hspells
    rw [← hchars] at hclosed
    revert hclosed
    decide +kernel

end FormatString

end CatalogLint
