import CatalogLint.Proofs.Format.Recovery
import CatalogLint.Proofs.Text.Offset

/-!
# The places that scanning notes

A cursor stands between two characters of a text (`Cursor.In`), and so does whatever scanning
leaves of it; where scanning fails, the fault shows at a byte that was still ahead
(`scanHead_onward`, `scanDelimiter_onward`).
-/
namespace CatalogLint

/-- The cursor stands between two characters of a text, or at one of its ends. -/
def Cursor.In (text : List Char) (c : Cursor) : Prop :=
  ∃ front, text = front ++ c.rest ∧ c.place = Text.byteLength front

namespace Cursor
variable {text cs : List Char} {c d : Cursor} {x : Char} {n k : ℕ}

theorem in_start (text : List Char) : In text ⟨0, text⟩ :=
  ⟨[], rfl, rfl⟩

theorem In.place_add (h : c.In text) : c.place + Text.byteLength c.rest = Text.byteLength text := by
  obtain ⟨front, rfl, hplace⟩ := h
  rw [hplace, Text.byteLength_append]

theorem In.dropBytes (h : c.In text) : Text.dropBytes c.place text = some c.rest := by
  obtain ⟨front, rfl, hplace⟩ := h
  rw [hplace, Text.dropBytes_append]

theorem In.isBoundary (h : c.In text) : Text.isBoundary text c.place = true := by
  rw [Text.isBoundary, h.dropBytes]
  rfl

theorem In.append (h : In text ⟨n, cs ++ d.rest⟩) (hd : d.place = n + Text.byteLength cs) :
    d.In text := by
  obtain ⟨front, rfl, rfl⟩ := h
  refine ⟨front ++ cs, by simp, ?_⟩
  rw [hd, Text.byteLength_append]

theorem In.cons (h : In text ⟨n, x :: cs⟩) : In text ⟨n + x.utf8Size, cs⟩ := by
  obtain ⟨front, rfl, hplace⟩ := h
  refine ⟨front ++ [x], by simp, ?_⟩
  rw [Text.byteLength_append, ← hplace]
  rfl

theorem In.skipWhile (h : c.In text) (p : Char → Bool) : (c.skipWhile p).In text := by
  obtain ⟨front, rfl, hplace⟩ := h
  refine ⟨front ++ c.rest.takeWhile p, ?_, ?_⟩
  · rw [Cursor.skipWhile, List.append_assoc, List.takeWhile_append_dropWhile]
  · rw [Cursor.skipWhile, hplace, Text.byteLength_append]

theorem In.next (h : c.In text) (hc : c.rest = x :: cs) : In text ⟨c.place + x.utf8Size, cs⟩ := by
  obtain ⟨place, rest⟩ := c
  subst hc
  exact h.cons

theorem In.place_eq (hc : c.In text) (hd : d.In text) (h : c.rest = cs ++ d.rest) :
    d.place = c.place + Text.byteLength cs := by
  have hc := hc.place_add
  have hd := hd.place_add
  rw [h, Text.byteLength_append] at hc
  omega

/-- What is shorter starts later. -/
theorem In.place_le (hc : c.In text) (hd : d.In text) (h : d.rest.length ≤ c.rest.length) :
    c.place ≤ d.place := by
  obtain ⟨front, hfront, -⟩ := id hc
  obtain ⟨front', hfront', -⟩ := id hd
  obtain ⟨cs, hcs⟩ := List.suffix_of_suffix_length_le ⟨front', hfront'.symm⟩ ⟨front, hfront.symm⟩ h
  rw [hc.place_eq hd hcs.symm]
  exact Nat.le_add_right _ _

/-- The next directive stands between two characters. -/
theorem In.nextDirective? {start : ℕ} (hc : Cursor.In text ⟨n, cs⟩) {ds : List Char}
    (h : Cursor.nextDirective? n cs = some (start, ds)) :
    Cursor.In text ⟨start, '%' :: ds⟩ ∧ n ≤ start := by
  fun_induction Cursor.nextDirective? n cs with
  | case1 => cases h
  | case2 n cs ih =>
      have hnext : Cursor.In text ⟨n + 1, '%' :: cs⟩ := hc.cons
      obtain ⟨hin, hle⟩ := ih hnext.cons h
      exact ⟨hin, by omega⟩
  | case3 n cs =>
      cases h
      exact ⟨hc, Nat.le_refl _⟩
  | case4 n c cs _ _ ih =>
      obtain ⟨hin, hle⟩ := ih hc.cons h
      exact ⟨hin, by omega⟩

/-- The place where the text ahead ends. -/
def bound (c : Cursor) : ℕ :=
  c.place + Text.byteLength c.rest

/-- The other cursor stands in the text ahead, or at its end. -/
def Leads (c d : Cursor) : Prop :=
  c.place ≤ d.place ∧ d.bound = c.bound

theorem Leads.trans {e : Cursor} (h : c.Leads d) (h' : d.Leads e) : c.Leads e :=
  ⟨h.1.trans h'.1, h'.2.trans h.2⟩

theorem leads_refl (c : Cursor) : c.Leads c :=
  ⟨Nat.le_refl _, rfl⟩

theorem leads_skipWhile (c : Cursor) (p : Char → Bool) : c.Leads (c.skipWhile p) := by
  refine ⟨Nat.le_add_right _ _, ?_⟩
  rw [bound, bound, Cursor.skipWhile, Nat.add_assoc, ← Text.byteLength_append,
    List.takeWhile_append_dropWhile]

/-- One character further. -/
theorem Leads.next (h : c.Leads d) (hd : d.rest = x :: cs) :
    c.Leads ⟨d.place + x.utf8Size, cs⟩ ∧ c.place ≤ d.place ∧ d.place < c.bound := by
  have hpos := x.utf8Size_pos
  obtain ⟨hle, hbound⟩ := h
  rw [← hbound, bound, hd, Text.byteLength]
  refine ⟨⟨by dsimp only; omega, ?_⟩, hle, by omega⟩
  rw [← hbound, bound, bound, hd, Text.byteLength, Nat.add_assoc]

/-- Scanning goes on in the text ahead, or fails at a byte of it. -/
inductive Onward (c : Cursor) {α : Type} : Except Failure (α × Cursor) → Prop where
  | found {a : α} {d : Cursor} (h : c.Leads d) : Onward c (.ok (a, d))
  | fault {f : Failure} (hle : c.place ≤ f.place) (hlt : f.place < c.bound) : Onward c (.error f)

variable {α : Type} {r : Except Failure (α × Cursor)}

theorem Onward.after (h : c.Leads d) (hr : d.Onward r) : c.Onward r := by
  cases hr with
  | found hd => exact .found (h.trans hd)
  | fault hle hlt => exact .fault (h.1.trans hle) (h.2 ▸ hlt)

theorem Onward.leads {a : α} (h : c.Onward (.ok (a, d))) : c.Leads d := by
  cases h
  assumption

theorem Onward.place {f : Failure} (h : c.Onward (.error f : Except Failure (α × Cursor))) :
    c.place ≤ f.place ∧ f.place < c.bound := by
  cases h
  exact ⟨‹_›, ‹_›⟩

/-- What follows a cursor of the text, and ends where the text ends, is of the text too. -/
theorem In.leads (hc : c.In text) (h : c.Leads d) (hrest : c.rest = cs ++ d.rest) : d.In text := by
  obtain ⟨place, rest⟩ := c
  subst hrest
  refine hc.append ?_
  have hbound := h.2
  simp only [bound, Text.byteLength_append] at hbound
  omega

end Cursor

/-! ### Scanning goes onward -/

namespace Cursor
variable {use : NumberUse} {c d : Cursor} {cs : List Char} {k m n : ℕ} {α : Type}

theorem place_of_checkNumber {f : Failure} (h : checkNumber use k n m = .error f) :
    f.place = n := by
  rw [checkNumber] at h
  split_ifs at h
  · cases h
    rfl
  · cases h
    rfl

/-- A number is checked at the byte after it. -/
theorem Leads.checkNumber (h : c.Leads d) (hle : c.place ≤ n) (hlt : n < c.bound) (g : ℕ → α) :
    c.Onward ((checkNumber use k n m).map fun m => (g m, d)) := by
  cases hcheck : CatalogLint.checkNumber use k n m with
  | error f =>
      rw [← place_of_checkNumber hcheck] at hle hlt
      exact .fault hle hlt
  | ok m => exact .found h

theorem scanPosition_onward (k : ℕ) (c : Cursor) : c.Onward (scanPosition k c) := by
  have hdigits : c.Leads c.skipDigits := c.leads_skipWhile Char.isDigit
  rw [scanPosition]
  dsimp only
  split_ifs
  · exact .found c.leads_refl
  split
  · next rest hrest =>
      obtain ⟨hnext, hle, hlt⟩ := hdigits.next hrest
      exact hnext.checkNumber hle hlt _
  · next rest hrest =>
      obtain ⟨hcolon, -⟩ := hdigits.next hrest
      obtain ⟨hdollar, hle, hlt⟩ := hcolon.next rfl
      exact hdollar.checkNumber hle hlt _
  · next rest _ hrest =>
      obtain ⟨hcolon, -⟩ := hdigits.next hrest
      have hlast : c.Leads (skipDigits ⟨c.skipDigits.place + 1, rest⟩) :=
        hcolon.trans (leads_skipWhile _ Char.isDigit)
      generalize (⟨c.skipDigits.place + 1, rest⟩ : Cursor) = e at hlast ⊢
      split_ifs
      · exact .found c.leads_refl
      split
      · next rest hrest =>
          obtain ⟨hdollar, hle, hlt⟩ := hlast.next hrest
          split
          · next f hf =>
              rw [← place_of_checkNumber hf] at hle hlt
              exact .fault hle hlt
          · next f _ hf =>
              rw [← place_of_checkNumber hf] at hle hlt
              exact .fault hle hlt
          · split_ifs
            · exact .fault hle hlt
            · exact .found hdollar
      · exact .found c.leads_refl
  · exact .found c.leads_refl

theorem scanWidth_onward (use : NumberUse) (k : ℕ) (c : Cursor) :
    c.Onward (scanWidth use k c) := by
  rw [scanWidth]
  split_ifs
  · exact .found (c.leads_skipWhile Char.isDigit)
  split
  · next rest hrest =>
      obtain ⟨hstar, -⟩ := c.leads_refl.next hrest
      have hstar : c.Leads ⟨c.place + 1, rest⟩ := hstar
      have hlast : c.Leads (skipDigits ⟨c.place + 1, rest⟩) :=
        hstar.trans (leads_skipWhile _ Char.isDigit)
      generalize (⟨c.place + 1, rest⟩ : Cursor) = d at hstar hlast ⊢
      dsimp only
      split_ifs
      · exact .found hstar
      split
      · next rest hrest =>
          obtain ⟨hdollar, hle, hlt⟩ := hlast.next hrest
          exact hdollar.checkNumber hle hlt _
      · exact .found hstar
  · exact .found c.leads_refl

theorem scanPrecision_onward (k : ℕ) (c : Cursor) : c.Onward (scanPrecision k c) := by
  rw [scanPrecision]
  split
  · next rest hrest =>
      obtain ⟨hdot, -⟩ := c.leads_refl.next hrest
      exact .after hdot (scanWidth_onward .precision k _)
  · exact .found c.leads_refl

/-- What a separator goes on with after its group size, of which a cursor is left. -/
theorem Leads.groupSize (h : c.Leads d) (size : Bool) : c.Leads (match d.rest with
    | '?' :: rest => ((size, true), (⟨d.place + 1, rest⟩ : Cursor))
    | _ => ((size, false), d)).2 := by
  split
  · next hrest => exact (h.next hrest).1
  · exact h

/-- An argument in place of the group size, of which a cursor is left. -/
theorem Leads.groupArgument (h : c.Leads d) : c.Leads (match d.rest with
    | '*' :: rest => (true, (⟨d.place + 1, rest⟩ : Cursor))
    | _ => (false, d)).2 := by
  split
  · next hrest => exact (h.next hrest).1
  · exact h

theorem leads_scanSeparator (c : Cursor) : c.Leads (scanSeparator c).2 := by
  rw [scanSeparator]
  split
  · next rest hrest =>
      obtain ⟨hcomma, -⟩ := c.leads_refl.next hrest
      have hcomma : c.Leads ⟨c.place + 1, rest⟩ := hcomma
      generalize (⟨c.place + 1, rest⟩ : Cursor) = d at hcomma ⊢
      refine Leads.groupSize ?_ _
      cases !d.digits.isEmpty with
      | true => exact hcomma.trans (d.leads_skipWhile Char.isDigit)
      | false => exact hcomma.groupArgument
  · exact c.leads_refl

/-- What stands between `%` and the specifier is read onward. -/
theorem scanHead_onward (k : ℕ) (c : Cursor) : c.Onward (scanHead k c) := by
  rw [scanHead]
  split
  · next f hf =>
      have := (hf ▸ scanPosition_onward k c).place
      exact .fault this.1 this.2
  · next position d hd =>
      have hd : c.Leads d := (hd ▸ scanPosition_onward k c).leads
      have hflags := hd.trans (d.leads_skipWhile isFlag)
      dsimp only
      have hwidth := Onward.after hflags (scanWidth_onward .width k _)
      split
      · next f hf =>
          rw [hf] at hwidth
          exact .fault hwidth.place.1 hwidth.place.2
      · next width e he =>
          rw [he] at hwidth
          have hprecision := Onward.after hwidth.leads (scanPrecision_onward k e)
          split
          · next f hf =>
              rw [hf] at hprecision
              exact .fault hprecision.place.1 hprecision.place.2
          · next precision f hf =>
              rw [hf] at hprecision
              exact .found (hprecision.leads.trans (leads_scanSeparator f))

theorem In.scanHead {text : List Char} {head : Head} (hc : c.In text)
    (h : scanHead k c = .ok (head, d)) : d.In text ∧ c.place ≤ d.place := by
  obtain ⟨o, -, hrest⟩ := exists_opening h
  have hleads : c.Leads d := (h ▸ scanHead_onward k c).leads
  exact ⟨hc.leads hleads hrest, hleads.1⟩

/-- The end of a delimiter has two characters at least. -/
theorem leads_scanDelimiter (h : scanDelimiter k n cs = .ok d) :
    n + 2 ≤ d.place ∧ d.bound = n + Text.byteLength cs := by
  fun_induction scanDelimiter k n cs with
  | case1 => cases h
  | case2 => cases h
  | case3 n cs ih =>
      obtain ⟨hle, hbound⟩ := ih h
      rw [hbound, Text.byteLength_percent, Text.byteLength_percent]
      omega
  | case4 n cs =>
      cases h
      rw [bound, Text.byteLength_percent, Text.byteLength, show ')'.utf8Size = 1 from rfl]
      dsimp only
      omega
  | case5 => cases h
  | case6 n c cs _ _ _ _ ih =>
      obtain ⟨hle, hbound⟩ := ih h
      rw [hbound, Text.byteLength]
      omega

/-- A delimiter fails at a byte of it, or at the last byte before it. -/
theorem place_of_scanDelimiter {f : Failure} (hn : 0 < n)
    (h : scanDelimiter k n cs = .error f) :
    n ≤ f.place + 1 ∧ f.place < n + Text.byteLength cs := by
  fun_induction scanDelimiter k n cs with
  | case1 n =>
      cases h
      dsimp only
      omega
  | case2 n =>
      cases h
      rw [Text.byteLength_percent]
      dsimp only
      omega
  | case3 n cs ih =>
      obtain ⟨hle, hlt⟩ := ih (Nat.lt_add_right 2 hn) h
      rw [Text.byteLength_percent, Text.byteLength_percent]
      omega
  | case4 => cases h
  | case5 n c cs =>
      have := Text.byteLength_cons_pos c cs
      cases h
      rw [Text.byteLength_percent]
      dsimp only
      omega
  | case6 n c cs _ _ _ _ ih =>
      obtain ⟨hle, hlt⟩ := ih (Nat.lt_add_right _ hn) h
      rw [Text.byteLength]
      omega

theorem In.scanDelimiter {text : List Char} (hc : In text ⟨n, cs⟩)
    (h : scanDelimiter k n cs = .ok d) : d.In text ∧ n + 2 ≤ d.place := by
  obtain ⟨t, rfl⟩ := exists_delimiter h
  obtain ⟨hle, hbound⟩ := leads_scanDelimiter h
  have hleads : Leads ⟨n, t.flatMap escape ++ '%' :: ')' :: d.rest⟩ d :=
    ⟨(Nat.le_add_right n 2).trans hle, hbound⟩
  have hrest : t.flatMap escape ++ '%' :: ')' :: d.rest =
      (t.flatMap escape ++ ['%', ')']) ++ d.rest := by simp
  exact ⟨hc.leads hleads hrest, hle⟩

end Cursor

end CatalogLint
