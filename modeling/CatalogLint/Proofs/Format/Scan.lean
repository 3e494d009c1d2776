import CatalogLint.Proofs.Format.Head

/-!
# Scanning what is written down

A wording, written down, is scanned to the directives of its meaning (`Wording.spells_ofText`):
text between directives is skipped, and the body of a compound directive ends where its closing
was written. The places that scanning notes are left open.
-/
namespace CatalogLint

/-- What scanning finds from a specifier on. -/
def scanSpecifier (inCompound : Bool) (count start : ℕ) (head : Head) (place : ℕ) :
    List Char → Directives × Option Cursor
  | [] => (.faulty start .unfinishedDirective (place - 1), none)
  | s :: rest =>
      let e : Cursor := ⟨place + s.utf8Size, rest⟩
      match specifierKinds s with
      | some kinds =>
          let r := scan inCompound (count + 1) e
          (.value start head kinds e.place r.directives, r.after)
      | none =>
          if s = '(' then
            match (scan true 0 e).after with
            | none => (.broken start e.placeOrLast (scan true 0 e).directives, none)
            | some f =>
                let r := scan inCompound (count + 1) f
                (.compound start head e.placeOrLast (scan true 0 e).directives f.place
                  r.directives, r.after)
          else if s = ')' then
            if inCompound then (.done, some e)
            else (.faulty start .unmatchedClose place, none)
          else if s = '|' then
            if inCompound then
              match scanDelimiter (count + 1) e.place e.rest with
              | .error f => (.faulty start f.fault f.place, none)
              | .ok f => (.done, some f)
            else (.faulty start .barOutsideCompound place, none)
          else (.faulty start (.unknownSpecifier (count + 1) s) place, none)

/-- What scanning finds once the head of a directive is read. -/
def scanHeaded (inCompound : Bool) (count start : ℕ) :
    Except Failure (Head × Cursor) → Directives × Option Cursor
  | .error f => (.faulty start f.fault f.place, none)
  | .ok (head, d) => scanSpecifier inCompound count start head d.place d.rest

/-- What scanning finds from a directive on. -/
def scanFrom (inCompound : Bool) (count : ℕ) :
    Option (ℕ × List Char) → Directives × Option Cursor
  | none => (if inCompound then .unclosed else .done, none)
  | some (start, cs) =>
      scanHeaded inCompound count start (scanHead (count + 1) ⟨start + 1, cs⟩)

theorem scan_eq (inCompound : Bool) (count : ℕ) (c : Cursor) :
    ((scan inCompound count c).directives, (scan inCompound count c).after) =
      scanFrom inCompound count (Cursor.nextDirective? c.place c.rest) := by
  rw [scan]
  split
  · next h =>
      rw [congrArg (scanFrom inCompound count) h]
      rfl
  · next start cs h =>
      rw [congrArg (scanFrom inCompound count) h, scanFrom]
      split
      · next f h =>
          rw [congrArg (scanHeaded inCompound count start) h]
          rfl
      · next head d h =>
          obtain ⟨place, w⟩ := d
          rw [congrArg (scanHeaded inCompound count start) h, scanHeaded]
          cases w with
          | nil => rfl
          | cons s rest =>
              rw [scanSpecifier]
              dsimp only
              cases specifierKinds s with
              | some kinds => rfl
              | none =>
                  dsimp only
                  split_ifs
                  · split
                    · next h => simp only [h]; rfl
                    · next f h => simp only [h]
                  · rfl
                  · rfl
                  · split
                    · next f h => simp only [h]; rfl
                    · next f h => simp only [h]
                  · rfl
                  · rfl

variable {b : Bool} {k n : ℕ} {s : Char} {w tail : List Char} {r : Option (List Char)}

theorem directives_scan (c : Cursor) : (scan b k c).directives =
    (scanFrom b k (Cursor.nextDirective? c.place c.rest)).1 :=
  congrArg Prod.fst (scan_eq b k c)

theorem after_scan (c : Cursor) : (scan b k c).after =
    (scanFrom b k (Cursor.nextDirective? c.place c.rest)).2 :=
  congrArg Prod.snd (scan_eq b k c)

/-! ### Text -/

theorem nextDirective?_escape (c : Char) (n : ℕ) (w : List Char) :
    Cursor.nextDirective? n (escape c ++ w) =
      Cursor.nextDirective? (n + Text.byteLength (escape c)) w := by
  unfold escape
  split_ifs with hc
  · rfl
  · rw [List.singleton_append, Cursor.nextDirective?]
    · rfl
    all_goals simp [hc]

theorem nextDirective?_percent (h : ∀ c ∈ w.head?, c ≠ '%') (n : ℕ) :
    Cursor.nextDirective? n ('%' :: w) = some (n, w) := by
  cases w with
  | nil => rfl
  | cons c cs =>
      have hc : c ≠ '%' := h c rfl
      rw [Cursor.nextDirective?]
      rintro ds ⟨⟩
      exact hc rfl

theorem scanDelimiter_escape (delimiter : List Char) (n : ℕ) (w : List Char) :
    ∃ m, scanDelimiter k n (delimiter.flatMap escape ++ '%' :: ')' :: w) = .ok ⟨m, w⟩ := by
  induction delimiter generalizing n with
  | nil => exact ⟨n + 2, rfl⟩
  | cons c cs ih =>
      rw [List.flatMap_cons, List.append_assoc]
      unfold escape
      split_ifs with hc
      · exact ih (n + 2)
      · obtain ⟨m, hm⟩ := ih (n + c.utf8Size)
        refine ⟨m, ?_⟩
        rw [List.singleton_append, scanDelimiter]
        · exact hm
        all_goals simp [hc]

/-! ### Directives -/

/-- A directive is scanned up to its specifier. -/
theorem scanFrom_directive (o : Opening) (hs : isFinal s = true) :
    ∃ m, scanFrom b k (Cursor.nextDirective? n ('%' :: o.text ++ s :: w)) =
      scanSpecifier b k n o.head m (s :: w) := by
  obtain ⟨m, hm⟩ := scanHead_text (k := k + 1) (n := n + 1) (o := o) (w := w) hs
  refine ⟨m, ?_⟩
  rw [List.cons_append, nextDirective?_percent (ne_percent hs), scanFrom, hm]
  rfl

/-- The level ends here, and `r` is left after it. -/
def Ends (b : Bool) (w : List Char) (r : Option (List Char)) : Prop :=
  ∀ k n, (scan b k ⟨n, w⟩).directives = .done ∧
    (scan b k ⟨n, w⟩).after.map Cursor.rest = r

theorem ends_nil : Ends false [] none := by
  intro k n
  rw [directives_scan, after_scan]
  exact ⟨rfl, rfl⟩

theorem ends_closing (closing : Closing) (w : List Char) :
    Ends true (closing.text ++ w) (some w) := by
  intro k n
  obtain ⟨o, delimiter⟩ := closing
  rw [directives_scan, after_scan]
  cases delimiter with
  | none =>
      obtain ⟨m, hm⟩ := scanFrom_directive (b := true) (k := k) (n := n) (w := w) o
        (show isFinal ')' = true by decide)
      have htext : Closing.text ⟨o, none⟩ ++ w = '%' :: o.text ++ ')' :: w := by
        simp [Closing.text]
      rw [htext, hm]
      exact ⟨rfl, rfl⟩
  | some delimiter =>
      let rest := delimiter.flatMap escape ++ '%' :: ')' :: w
      obtain ⟨m, hm⟩ := scanFrom_directive (b := true) (k := k) (n := n) (w := rest) o
        (show isFinal '|' = true by decide)
      obtain ⟨q, hq⟩ := scanDelimiter_escape (k := k + 1) delimiter (m + '|'.utf8Size) w
      have htext : Closing.text ⟨o, some delimiter⟩ ++ w = '%' :: o.text ++ '|' :: rest := by
        simp [Closing.text, rest]
      have hbar : specifierKinds '|' = none := rfl
      rw [htext, hm, scanSpecifier]
      simp only [hbar, rest, hq]
      exact ⟨rfl, rfl⟩

/-- The directives of a derivation, at whatever places they stand. -/
inductive Format.Spells : Format → Directives → Prop where
  | done : Spells .done .done
  | text {c : Char} {rest : Format} {d : Directives} (h : Spells rest d) : Spells (.text c rest) d
  | value {p : Preamble} {s : Specifier} {rest : Format} {d : Directives} {start stop : ℕ}
      (h : Spells rest d) : Spells (.value p s rest) (.value start p.head s.kinds stop d)
  | compound {p : Preamble} {body rest : Format} {delimiter : Option (List Char)}
      {e d : Directives} {start opening stop : ℕ} (hbody : Spells body e) (h : Spells rest d) :
      Spells (.compound p body delimiter rest) (.compound start p.head opening e stop d)

theorem Wording.spells_scan (f : Wording) (hend : Ends b tail r) (k n : ℕ) :
    f.format.Spells (scan b k ⟨n, f.chars ++ tail⟩).directives ∧
      (scan b k ⟨n, f.chars ++ tail⟩).after.map Cursor.rest = r := by
  induction f generalizing b tail r k n with
  | done =>
      obtain ⟨hdirectives, hafter⟩ := hend k n
      rw [chars, List.nil_append, hdirectives]
      exact ⟨.done, hafter⟩
  | text c rest ih =>
      obtain ⟨hspells, hafter⟩ := ih hend k (n + Text.byteLength (escape c))
      rw [directives_scan] at hspells
      rw [after_scan] at hafter
      rw [chars, List.append_assoc, directives_scan, after_scan, nextDirective?_escape]
      exact ⟨.text hspells, hafter⟩
  | value o s rest ih =>
      obtain ⟨m, hm⟩ := scanFrom_directive (b := b) (k := k) (n := n) (w := rest.chars ++ tail) o
        (isFinal_of_specifierKinds s.known)
      obtain ⟨hspells, hafter⟩ := ih hend (k + 1) (m + s.letter.utf8Size)
      have htext : (value o s rest).chars ++ tail =
          '%' :: o.text ++ s.letter :: (rest.chars ++ tail) := by
        simp [chars]
      rw [directives_scan, after_scan, htext, hm, scanSpecifier]
      simp only [s.known, ← o.head_preamble]
      exact ⟨.value hspells, hafter⟩
  | compound o body closing rest ihbody ih =>
      obtain ⟨m, hm⟩ := scanFrom_directive (b := b) (k := k) (n := n)
        (w := body.chars ++ (closing.text ++ (rest.chars ++ tail))) o
        (show isFinal '(' = true by decide)
      obtain ⟨hbody, hclosed⟩ := ihbody (ends_closing closing (rest.chars ++ tail)) 0
        (m + '('.utf8Size)
      obtain ⟨e, he, hrest⟩ := Option.map_eq_some_iff.mp hclosed
      obtain ⟨hspells, hafter⟩ := ih hend (k + 1) e.place
      have htext : (compound o body closing rest).chars ++ tail = '%' :: o.text ++
          '(' :: (body.chars ++ (closing.text ++ (rest.chars ++ tail))) := by
        simp [chars]
      have hopen : specifierKinds '(' = none := rfl
      rw [directives_scan, after_scan, htext, hm, scanSpecifier]
      rw [← hrest] at hspells hafter
      simp only [hopen, if_true, he, ← o.head_preamble]
      exact ⟨.compound hbody hspells, hafter⟩

theorem Wording.spells_ofText (f : Wording) : f.format.Spells (.ofText f.chars) := by
  have := (f.spells_scan ends_nil 0 0).1
  rwa [List.append_nil] at this

theorem Format.spells_ofText (f : Format) : f.Spells (.ofText f.chars) := by
  have := f.wording.spells_ofText
  rwa [f.format_wording, f.chars_wording] at this

end CatalogLint
