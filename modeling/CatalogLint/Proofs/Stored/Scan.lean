import CatalogLint.Proofs.Format.Place
import CatalogLint.Stored.Scan

/-!
# Scanning bytes

Scanning the bytes of a text finds what scanning its characters does (`ByteScan.head_scans`,
`ByteScan.nextDirective?_eq`, `ByteScan.delimiter_closes`), as long as its places can be counted:
a byte of a longer character is not one of ASCII, so that no byte is taken for a character that is
not there.
-/
namespace CatalogLint

namespace Text

theorem bytes_append (cs ds : List Char) : bytes (cs ++ ds) = bytes cs ++ bytes ds := by
  simp [bytes, encode]

theorem length_bytes (cs : List Char) : (bytes cs).length = byteLength cs := by
  induction cs with
  | nil => rfl
  | cons c cs ih =>
      rw [← List.singleton_append, bytes_append, List.length_append, ih, byteLength_append]
      simp [bytes, encode, byteLength]

/-- A character is its own only byte, or neither it nor its bytes are of ASCII. -/
theorem bytes_singleton (c : Char) : bytes [c] = [c] ∨
    128 ≤ c.toNat ∧ ∀ x ∈ bytes [c], 128 ≤ x.toNat := by
  have hval : c.val.toNat = c.toNat := rfl
  have hbyte : ∀ b : UInt8, (Char.ofUInt8 b).toNat = b.toNat := fun _ => rfl
  have hbytes : bytes [c] = (String.utf8EncodeChar c).map Char.ofUInt8 := by simp [bytes, encode]
  rw [hbytes, String.utf8EncodeChar]
  rcases Nat.lt_or_ge c.toNat 128 with h | h
  · left
    rw [if_pos (by omega), List.map_singleton, List.singleton_inj]
    apply Char.ext
    apply UInt32.toNat_inj.mp
    change (Char.ofUInt8 _).toNat = c.toNat
    rw [hbyte, UInt8.toNat_ofNat', hval]
    omega
  · right
    refine ⟨h, ?_⟩
    rw [if_neg (by omega)]
    split_ifs <;> simp [hbyte] <;> omega

/-- The bytes of a text that starts with a character. -/
theorem exists_bytes_cons (c : Char) : ∃ b bs, (∀ cs, bytes (c :: cs) = b :: (bs ++ bytes cs)) ∧
    c.utf8Size = bs.length + 1 ∧
    (b = c ∧ bs = [] ∨ 128 ≤ c.toNat ∧ ∀ x ∈ b :: bs, 128 ≤ x.toNat) := by
  have hlength := length_bytes [c]
  have hcases := bytes_singleton c
  obtain ⟨b, bs, hb⟩ := List.exists_cons_of_ne_nil (show bytes [c] ≠ [] by
    intro hnil
    rw [hnil, byteLength] at hlength
    have := c.utf8Size_pos
    simp only [List.length_nil] at hlength
    omega)
  rw [hb] at hlength hcases
  refine ⟨b, bs, fun cs => ?_, ?_, ?_⟩
  · rw [← List.singleton_append, bytes_append, hb, List.cons_append]
  · simpa [byteLength] using hlength.symm
  · simpa using hcases

variable {x c : Char} {cs rest : List Char}

/-- A byte of ASCII is a character. -/
theorem exists_of_bytes_eq (hx : x.toNat < 128) (h : bytes cs = x :: rest) :
    ∃ ds, cs = x :: ds := by
  cases cs with
  | nil => cases h
  | cons c cs =>
      obtain ⟨b, bs, hbytes, -, ⟨rfl, -⟩ | ⟨-, hb⟩⟩ := exists_bytes_cons c
      · rw [hbytes] at h
        exact ⟨cs, by rw [(List.cons.inj h).1]⟩
      · rw [hbytes] at h
        have := hb b List.mem_cons_self
        rw [(List.cons.inj h).1] at this
        omega

/-- No byte of another character is `x`. -/
theorem bytes_ne (hx : x.toNat < 128) (hc : c ≠ x) : ∀ b ∈ bytes [c], b ≠ x := by
  rintro b hb rfl
  rcases bytes_singleton c with h | ⟨-, h⟩
  · rw [h, List.mem_singleton] at hb
    exact hc hb.symm
  · have := h b hb
    omega

theorem length_bytes_singleton (c : Char) : (bytes [c]).length = c.utf8Size := by
  rw [length_bytes, byteLength, byteLength, Nat.add_zero]

theorem utf8Size_of_lt (hc : c.toNat < 128) : c.utf8Size = 1 := by
  rcases bytes_singleton c with h | ⟨h, -⟩
  · rw [← length_bytes_singleton, h, List.length_singleton]
  · omega

end Text

theorem not_isDigit_of_le {c : Char} (h : 128 ≤ c.toNat) : c.isDigit = false := by
  have hval : c.val.toNat = c.toNat := rfl
  by_contra hdigit
  simp [Char.isDigit, UInt32.le_iff_toNat_le] at hdigit
  omega

theorem not_isFlag_of_le {c : Char} (h : 128 ≤ c.toNat) : isFlag c = false := by
  by_contra hflag
  simp only [isFlag, Bool.not_eq_false, List.contains_iff_mem] at hflag
  have hall : [' ', '+', '-', '#', '0', '='].all (·.toNat < 128) = true := rfl
  exact absurd (of_decide_eq_true (List.all_eq_true.mp hall c hflag)) (by omega)

/-! ### Cursors -/

namespace Cursor
variable {text cs : List Char} {c d : Cursor} {x : Char} {n k : ℕ}

theorem In.drop_bytes (h : c.In text) : (Text.bytes text).drop c.place = Text.bytes c.rest := by
  obtain ⟨front, rfl, hplace⟩ := h
  rw [hplace, Text.bytes_append, ← Text.length_bytes front, List.drop_left]

/-- The byte at a cursor. -/
theorem In.byte_eq (h : c.In text) :
    (Text.bytes text)[c.place]? = (Text.bytes c.rest).head? := by
  rw [← h.drop_bytes, List.head?_drop]

theorem In.byte_eq_none (h : c.In text) : (Text.bytes text)[c.place]? = none ↔ c.rest = [] := by
  rw [h.byte_eq]
  cases hrest : c.rest with
  | nil => simp [Text.bytes, Text.encode]
  | cons y ys =>
      obtain ⟨b, bs, hbytes, -⟩ := Text.exists_bytes_cons y
      simp [hbytes]

/-- A byte of ASCII is a character. -/
theorem In.byte_eq_some (h : c.In text) (hx : x.toNat < 128) :
    (Text.bytes text)[c.place]? = some x ↔ ∃ cs, c.rest = x :: cs := by
  rw [h.byte_eq]
  cases hrest : c.rest with
  | nil => simp [Text.bytes, Text.encode]
  | cons y ys =>
      obtain ⟨b, bs, hbytes, -, ⟨rfl, rfl⟩ | ⟨hy, hb⟩⟩ := Text.exists_bytes_cons y
      · simp [hbytes]
      · have hbx : b ≠ x := by
          rintro rfl
          have := hb b List.mem_cons_self
          omega
        have hyx : y ≠ x := by
          rintro rfl
          omega
        simp [hbytes, hbx, hyx]

theorem In.byte_ne (h : c.In text) (hx : x.toNat < 128) (hno : ∀ cs, c.rest = x :: cs → False) :
    ¬ (Text.bytes text)[c.place]? = some x := by
  rw [h.byte_eq_some hx]
  exact fun ⟨cs, hcs⟩ => hno cs hcs

end Cursor

namespace ByteScan
variable {w : Word} {text cs bs : List Char} {c d : Cursor} {x : Char} {n k : ℕ}

/-! ### Digits and flags -/

theorem skipDigits_eq (hfits : w.Fits (n + Text.byteLength cs)) :
    skipDigits w (Text.bytes cs) n = .ok (n + Text.byteLength (cs.takeWhile Char.isDigit)) := by
  induction cs generalizing n with
  | nil => rfl
  | cons c cs ih =>
      obtain ⟨b, bs, hbytes, hsize, ⟨rfl, rfl⟩ | ⟨hc, hb⟩⟩ := Text.exists_bytes_cons c
      · rw [hbytes, skipDigits, List.takeWhile_cons]
        rw [Text.byteLength, hsize, List.length_nil, Nat.zero_add, ← Nat.add_assoc] at hfits
        split_ifs
        · rw [Word.add_eq (hfits.mono (Nat.le_add_right _ _)), Checked.ok_bind, List.nil_append,
            ih hfits, Text.byteLength, hsize, List.length_nil, Nat.zero_add, Nat.add_assoc]
        · rfl
      · rw [hbytes, skipDigits, not_isDigit_of_le (hb b List.mem_cons_self), List.takeWhile_cons,
          not_isDigit_of_le hc]
        rfl

end ByteScan

/-- A number, if there is room for it. -/
def Word.fitting (w : Word) (n : ℕ) : Option ℕ :=
  if w.Fits n then some n else none

namespace ByteScan
variable {w : Word} {text cs bs : List Char} {c d e : Cursor} {x : Char} {n k : ℕ}

theorem fitting_digit (w : Word) (v digit : ℕ) :
    ((w.fitting v).bind fun n => do
      let n ← (w.mul n 10).toOption
      (w.add n digit).toOption) = w.fitting (10 * v + digit) := by
  rw [Nat.mul_comm, Word.fitting, Word.fitting]
  by_cases hv : w.Fits v
  · rw [if_pos hv, Option.bind_some, Word.mul]
    by_cases hten : w.Fits (v * 10)
    · by_cases hall : w.Fits (v * 10 + digit)
      · simp [hten, hall, Word.add, Except.toOption]
      · simp [hten, hall, Word.add, Except.toOption]
    · rw [if_neg hten, if_neg fun hall => hten (hall.mono (Nat.le_add_right _ _))]
      rfl
  · rw [if_neg hv, if_neg fun hall => hv (hall.mono (by omega))]
    rfl

theorem le_toNat_of_isDigit (h : x.isDigit = true) : '0'.toNat ≤ x.toNat := by
  simp only [Char.isDigit, Bool.and_eq_true, decide_eq_true_eq, UInt32.le_iff_toNat_le] at h
  exact h.1

theorem number_eq {v : ℕ} (hfits : w.Fits (n + Text.byteLength cs)) :
    number w (Text.bytes cs) (w.fitting v) n =
      .ok (w.fitting ((cs.takeWhile Char.isDigit).foldl
          (fun n d => 10 * n + (d.toNat - '0'.toNat)) v),
        n + Text.byteLength (cs.takeWhile Char.isDigit)) := by
  induction cs generalizing n v with
  | nil => rfl
  | cons c cs ih =>
      obtain ⟨b, bs, hbytes, hsize, ⟨rfl, rfl⟩ | ⟨hc, hb⟩⟩ := Text.exists_bytes_cons c
      · rw [hbytes, number, List.takeWhile_cons]
        rw [Text.byteLength, hsize, List.length_nil, Nat.zero_add, ← Nat.add_assoc] at hfits
        split_ifs with hdigit
        · rw [Checked.sub_eq (le_toNat_of_isDigit hdigit), Checked.ok_bind]
          dsimp only
          rw [fitting_digit, Word.add_eq (hfits.mono (Nat.le_add_right _ _)), Checked.ok_bind,
            List.nil_append, ih hfits, List.foldl_cons, Text.byteLength, hsize, List.length_nil,
            Nat.zero_add, Nat.add_assoc]
        · rfl
      · rw [hbytes, number, not_isDigit_of_le (hb b List.mem_cons_self), List.takeWhile_cons,
          not_isDigit_of_le hc]
        rfl

theorem flags_eq {spaced : Bool} (hfits : w.Fits (n + Text.byteLength cs)) :
    flags w (Text.bytes cs) spaced n =
      .ok (spaced || (cs.takeWhile isFlag).contains ' ',
        n + Text.byteLength (cs.takeWhile isFlag)) := by
  induction cs generalizing n spaced with
  | nil => simp [Text.bytes, Text.encode, flags, Text.byteLength]
  | cons c cs ih =>
      obtain ⟨b, bs, hbytes, hsize, ⟨rfl, rfl⟩ | ⟨hc, hb⟩⟩ := Text.exists_bytes_cons c
      · rw [hbytes, flags, List.takeWhile_cons]
        rw [Text.byteLength, hsize, List.length_nil, Nat.zero_add, ← Nat.add_assoc] at hfits
        split_ifs
        · rw [Word.add_eq (hfits.mono (Nat.le_add_right _ _)), Checked.ok_bind,
            List.nil_append, ih hfits, List.contains_cons, Text.byteLength, hsize, List.length_nil,
            Nat.zero_add, Nat.add_assoc, Bool.or_assoc, Bool.beq_comm]
          rfl
        · simp [Text.byteLength]
      · rw [hbytes, flags, not_isFlag_of_le (hb b List.mem_cons_self), List.takeWhile_cons,
          not_isFlag_of_le hc]
        simp [Text.byteLength]

/-! ### At a cursor -/

theorem isDigitAt_eq (hc : c.In text) :
    isDigitAt (Text.bytes text) c.place = !c.digits.isEmpty := by
  rw [isDigitAt, hc.byte_eq, Cursor.digits]
  cases c.rest with
  | nil => rfl
  | cons y ys =>
      obtain ⟨b, bs, hbytes, -, ⟨rfl, rfl⟩ | ⟨hy, hb⟩⟩ := Text.exists_bytes_cons y
      · rw [hbytes, List.takeWhile_cons]
        cases hdigit : b.isDigit <;> simp [hdigit]
      · rw [hbytes, List.takeWhile_cons, not_isDigit_of_le hy]
        simp [not_isDigit_of_le (hb b List.mem_cons_self)]

theorem skipDigits_at (hc : c.In text) (hw : w.Fits (Text.byteLength text)) :
    skipDigits w ((Text.bytes text).drop c.place) c.place = .ok c.skipDigits.place := by
  rw [hc.drop_bytes, skipDigits_eq (hc.place_add ▸ hw)]
  rfl

theorem number_at (hc : c.In text) (hw : w.Fits (Text.byteLength text)) :
    number w ((Text.bytes text).drop c.place) (some 0) c.place =
      .ok (w.fitting (decimal c.digits), c.skipDigits.place) := by
  have hzero : some 0 = w.fitting 0 := (if_pos (hw.mono (Nat.zero_le _))).symm
  rw [hc.drop_bytes, hzero, number_eq (hc.place_add ▸ hw)]
  rfl

theorem flags_at (hc : c.In text) (hw : w.Fits (Text.byteLength text)) :
    flags w ((Text.bytes text).drop c.place) false c.place =
      .ok ((c.rest.takeWhile isFlag).contains ' ', (c.skipWhile isFlag).place) := by
  rw [hc.drop_bytes, flags_eq (hc.place_add ▸ hw), Bool.false_or]
  rfl

theorem add_place (hc : c.In text) (hw : w.Fits (Text.byteLength text)) (hx : c.rest = x :: cs) :
    w.add c.place 1 = .ok (c.place + 1) := by
  apply Word.add_eq
  apply hw.mono
  rw [← hc.place_add, hx, Text.byteLength]
  have := x.utf8Size_pos
  omega

theorem checkNumber_fitting (hlargest : w.Fits largestNumber) (use : NumberUse) (k n m : ℕ) :
    checkNumber use k n (w.fitting m) = CatalogLint.checkNumber use k n m := by
  rw [Word.fitting]
  split_ifs with hm
  · rfl
  · have hlt : largestNumber < m := by
      by_contra hle
      exact hm (hlargest.mono (Nat.le_of_not_lt hle))
    rw [CatalogLint.checkNumber, if_neg (by omega), if_pos hlt]
    rfl

theorem checkRange_fitting (hlargest : w.Fits largestNumber) (k p m n : ℕ) :
    checkRange k p (w.fitting m) (w.fitting n) =
      match CatalogLint.checkNumber .conversion k p n,
        CatalogLint.checkNumber .conversion k p m with
      | .error g, _ | .ok _, .error g => .error g
      | .ok n, .ok m => if m > n then .error ⟨.rangeReversed k, p⟩ else .ok (m, n) := by
  rw [checkRange, checkNumber_fitting hlargest, checkNumber_fitting hlargest]
  cases CatalogLint.checkNumber .conversion k p n with
  | error g => rfl
  | ok n => cases CatalogLint.checkNumber .conversion k p m <;> rfl

/-- Scanning the bytes finds what scanning the characters does, and stops where that stops,
between two characters. -/
inductive Scans (text : List Char) {α : Type} :
    Except Failure (α × Cursor) → Checked (Except Failure (α × ℕ)) → Prop where
  | fault (f : Failure) : Scans text (.error f) (.ok (.error f))
  | found {a : α} {d : Cursor} (h : d.In text) : Scans text (.ok (a, d)) (.ok (.ok (a, d.place)))

/-- Scanning a position on from the last number of a range. -/
theorem range_scans (hc : c.In text) (he : e.In text) (hw : w.Fits (Text.byteLength text))
    (hlargest : w.Fits largestNumber) (m : ℕ) :
    Scans text (match e.skipDigits.rest with
        | '$' :: rest =>
            match CatalogLint.checkNumber .conversion k e.skipDigits.place (decimal e.digits),
              CatalogLint.checkNumber .conversion k e.skipDigits.place m with
            | .error g, _ | .ok _, .error g => .error g
            | .ok n, .ok m =>
                if m > n then .error ⟨.rangeReversed k, e.skipDigits.place⟩
                else .ok (.range m n, ⟨e.skipDigits.place + 1, rest⟩)
        | _ => .ok (.next, c))
      (range w (Text.bytes text) k c.place (w.fitting m) e.place) := by
  have hd : e.skipDigits.In text := he.skipWhile _
  rw [range, number_at he hw, Checked.ok_bind]
  dsimp only
  split
  · next rest hrest =>
      rw [if_pos ((hd.byte_eq_some (by decide)).mpr ⟨rest, hrest⟩), checkRange_fitting hlargest]
      cases CatalogLint.checkNumber .conversion k e.skipDigits.place (decimal e.digits) with
      | error g => exact .fault g
      | ok n =>
          cases CatalogLint.checkNumber .conversion k e.skipDigits.place m with
          | error g => exact .fault g
          | ok m =>
              dsimp only
              split_ifs
              · exact .fault _
              · dsimp only
                rw [add_place hd hw hrest]
                exact .found (hd.next hrest)
  · next hno =>
      rw [if_neg (hd.byte_ne (by decide) hno)]
      exact .found hc

theorem position_scans (hc : c.In text) (hw : w.Fits (Text.byteLength text))
    (hlargest : w.Fits largestNumber) :
    Scans text (scanPosition k c) (position w (Text.bytes text) k c.place) := by
  have hd : c.skipDigits.In text := hc.skipWhile _
  rw [position, isDigitAt_eq hc]
  generalize hr : scanPosition k c = r
  rw [scanPosition] at hr
  dsimp only at hr
  cases hdigits : c.digits.isEmpty with
  | true =>
      rw [hdigits] at hr
      subst hr
      exact .found hc
  | false =>
      rw [hdigits] at hr
      rw [if_neg (by decide), number_at hc hw, Checked.ok_bind]
      rw [if_neg (by decide)] at hr
      dsimp only
      simp only [checkNumber_fitting hlargest]
      split at hr
      · next rest hrest =>
          subst hr
          rw [if_pos ((hd.byte_eq_some (by decide)).mpr ⟨rest, hrest⟩)]
          cases CatalogLint.checkNumber .conversion k c.skipDigits.place (decimal c.digits) with
          | error f => exact .fault f
          | ok m =>
              dsimp only
              rw [add_place hd hw hrest]
              exact .found (hd.next hrest)
      · next rest hrest =>
          subst hr
          have he : Cursor.In text ⟨c.skipDigits.place + 1, '$' :: rest⟩ := hd.next hrest
          rw [if_neg (hd.byte_ne (by decide) (by simp [hrest])),
            if_pos ((hd.byte_eq_some (by decide)).mpr ⟨_, hrest⟩), add_place hd hw hrest,
            Checked.ok_bind, isDigitAt_eq he]
          rw [if_neg (by simp [Cursor.digits]), if_pos ((he.byte_eq_some (by decide)).mpr ⟨_, rfl⟩)]
          cases CatalogLint.checkNumber .conversion k (c.skipDigits.place + 1)
              (decimal c.digits) with
          | error f => exact .fault f
          | ok m =>
              have hfits : w.Fits (c.skipDigits.place + 2) := by
                apply hw.mono
                rw [← hd.place_add, hrest, Text.byteLength, Text.byteLength,
                  show ':'.utf8Size = 1 from rfl, show '$'.utf8Size = 1 from rfl]
                omega
              dsimp only
              rw [Word.add_eq hfits]
              exact .found he.cons
      · next rest hne hrest =>
          have he : Cursor.In text ⟨c.skipDigits.place + 1, rest⟩ := hd.next hrest
          rw [if_neg (hd.byte_ne (by decide) (by simp [hrest])),
            if_pos ((hd.byte_eq_some (by decide)).mpr ⟨_, hrest⟩), add_place hd hw hrest,
            Checked.ok_bind, isDigitAt_eq he]
          have hdollar := he.byte_ne (x := '$') (by decide) hne
          generalize hcursor : (⟨c.skipDigits.place + 1, rest⟩ : Cursor) = e at hr he
          cases hlast : e.digits.isEmpty with
          | true =>
              rw [hlast, if_pos (by decide)] at hr
              subst hr
              rw [if_neg (by decide), if_neg hdollar]
              exact .found hc
          | false =>
              have hplace : c.skipDigits.place + 1 = e.place := by rw [← hcursor]
              rw [hlast, if_neg (by decide)] at hr
              subst hr
              rw [if_pos (by decide), hplace]
              exact range_scans hc he hw hlargest _
      · next hdollar _ hcolon =>
          subst hr
          rw [if_neg (hd.byte_ne (by decide) hdollar), if_neg (hd.byte_ne (by decide) hcolon)]
          exact .found hc

theorem width_scans (hc : c.In text) (hw : w.Fits (Text.byteLength text))
    (hlargest : w.Fits largestNumber) (use : NumberUse) :
    Scans text (scanWidth use k c) (width w (Text.bytes text) use k c.place) := by
  rw [width, isDigitAt_eq hc]
  generalize hr : scanWidth use k c = r
  rw [scanWidth] at hr
  cases hdigits : c.digits.isEmpty with
  | false =>
      rw [hdigits, if_pos (by decide)] at hr
      subst hr
      rw [if_pos (by decide), skipDigits_at hc hw]
      exact .found (hc.skipWhile _)
  | true =>
      rw [hdigits, if_neg (by decide)] at hr
      rw [if_neg (by decide)]
      split at hr
      · next rest hrest =>
          have hd : Cursor.In text ⟨c.place + 1, rest⟩ := hc.next hrest
          rw [if_pos ((hc.byte_eq_some (by decide)).mpr ⟨rest, hrest⟩), add_place hc hw hrest,
            Checked.ok_bind, isDigitAt_eq hd]
          generalize hcursor : (⟨c.place + 1, rest⟩ : Cursor) = d at hr hd
          have hplace : c.place + 1 = d.place := by rw [← hcursor]
          dsimp only at hr
          rw [hplace]
          cases hnumber : d.digits.isEmpty with
          | true =>
              rw [hnumber] at hr
              subst hr
              exact .found hd
          | false =>
              have he : d.skipDigits.In text := hd.skipWhile _
              rw [hnumber, if_neg (by decide)] at hr
              rw [if_pos (by decide), number_at hd hw, Checked.ok_bind]
              dsimp only
              rw [checkNumber_fitting hlargest]
              split at hr
              · next z hz =>
                  subst hr
                  rw [if_pos ((he.byte_eq_some (by decide)).mpr ⟨z, hz⟩)]
                  cases CatalogLint.checkNumber use k d.skipDigits.place (decimal d.digits) with
                  | error g => exact .fault g
                  | ok m =>
                      dsimp only
                      rw [add_place he hw hz]
                      exact .found (he.next hz)
              · next hno =>
                  subst hr
                  rw [if_neg (he.byte_ne (by decide) hno)]
                  exact .found hd
      · next hno =>
          subst hr
          rw [if_neg (hc.byte_ne (by decide) hno)]
          exact .found hc

theorem precision_scans (hc : c.In text) (hw : w.Fits (Text.byteLength text))
    (hlargest : w.Fits largestNumber) :
    Scans text (scanPrecision k c) (precision w (Text.bytes text) k c.place) := by
  rw [precision]
  generalize hr : scanPrecision k c = r
  rw [scanPrecision] at hr
  split at hr
  · next rest hrest =>
      subst hr
      rw [if_pos ((hc.byte_eq_some (by decide)).mpr ⟨rest, hrest⟩), add_place hc hw hrest,
        Checked.ok_bind]
      exact width_scans (hc.next hrest) hw hlargest .precision
  · next hno =>
      subst hr
      rw [if_neg (hc.byte_ne (by decide) hno)]
      exact .found hc

/-- What scanning makes of what follows a group size. -/
def afterGroupSize (size : Bool) (d : Cursor) : (Bool × Bool) × Cursor :=
  match d.rest with
  | '?' :: rest => ((size, true), ⟨d.place + 1, rest⟩)
  | _ => ((size, false), d)

theorem match_star {α : Type} (cs : List Char) (f : List Char → α) (a : α) :
    (¬∃ z, cs = '*' :: z) →
      (match cs with
        | '*' :: z => f z
        | _ => a) = a := by
  intro h
  split
  · next z => exact absurd ⟨z, rfl⟩ h
  · rfl

/-- The group size of a separator, and what scanning makes of the rest. -/
theorem exists_groupSize_eq (hc : c.In text) (hw : w.Fits (Text.byteLength text))
    {rest : List Char} (hrest : c.rest = ',' :: rest) : ∃ size d, Cursor.In text d ∧
      groupSize w (Text.bytes text) (c.place + 1) = .ok (size, d.place) ∧
        scanSeparator c = afterGroupSize size d := by
  have hd : Cursor.In text ⟨c.place + 1, rest⟩ := hc.next hrest
  rw [groupSize, isDigitAt_eq hd, scanSeparator, hrest]
  by_cases hdigits : Cursor.digits ⟨c.place + 1, rest⟩ = []
  · rw [if_neg (by simp [hdigits])]
    by_cases hstar : ∃ z, rest = '*' :: z
    · obtain ⟨z, rfl⟩ := hstar
      refine ⟨true, ⟨c.place + 1 + 1, z⟩, hd.next rfl, ?_, rfl⟩
      rw [if_pos ((hd.byte_eq_some (by decide)).mpr ⟨z, rfl⟩), add_place hd hw rfl]
      rfl
    · refine ⟨false, ⟨c.place + 1, rest⟩, hd, ?_, ?_⟩
      · rw [if_neg (hd.byte_ne (by decide) fun z hz => hstar ⟨z, hz⟩)]
        rfl
      · simp only [hdigits, List.isEmpty_nil, Bool.not_true, Bool.false_eq_true, if_false]
        exact congrArg (fun q : Bool × Cursor => afterGroupSize q.1 q.2)
          (match_star rest (fun z => (true, ⟨c.place + 1 + 1, z⟩)) (false, ⟨c.place + 1, rest⟩)
            hstar)
  · have hne : (!(Cursor.digits ⟨c.place + 1, rest⟩).isEmpty) = true := by simpa using hdigits
    refine ⟨false, Cursor.skipDigits ⟨c.place + 1, rest⟩, hd.skipWhile _, ?_, ?_⟩
    · rw [if_pos hne, skipDigits_at hd hw]
      rfl
    · simp only [hne, if_true]
      rfl

theorem separator_eq (hc : c.In text) (hw : w.Fits (Text.byteLength text)) :
    separator w (Text.bytes text) c.place =
      .ok ((scanSeparator c).1, (scanSeparator c).2.place) ∧ (scanSeparator c).2.In text := by
  rw [separator]
  by_cases hcomma : ∃ rest, c.rest = ',' :: rest
  · obtain ⟨rest, hrest⟩ := hcomma
    obtain ⟨size, d, hd, hsize, hscan⟩ := exists_groupSize_eq hc hw hrest
    rw [if_pos ((hc.byte_eq_some (by decide)).mpr ⟨rest, hrest⟩), add_place hc hw hrest,
      Checked.ok_bind, hsize, Checked.ok_bind]
    dsimp only
    generalize scanSeparator c = r at hscan ⊢
    rw [afterGroupSize] at hscan
    split at hscan
    · next z hz =>
        subst hscan
        rw [if_pos ((hd.byte_eq_some (by decide)).mpr ⟨z, hz⟩), add_place hd hw hz]
        exact ⟨rfl, hd.next hz⟩
    · next hno =>
        subst hscan
        rw [if_neg (hd.byte_ne (by decide) hno)]
        exact ⟨rfl, hd⟩
  · have hscan : scanSeparator c = ((false, false), c) := by
      rw [scanSeparator]
      split
      · next rest hrest => exact absurd ⟨rest, hrest⟩ hcomma
      · rfl
    rw [if_neg (hc.byte_ne (by decide) fun z hz => hcomma ⟨z, hz⟩), hscan]
    exact ⟨rfl, hc⟩

theorem head_scans (hc : c.In text) (hw : w.Fits (Text.byteLength text))
    (hlargest : w.Fits largestNumber) :
    Scans text (scanHead k c) (head w (Text.bytes text) k c.place) := by
  have hposition := position_scans (k := k) hc hw hlargest
  rw [head, scanHead]
  generalize scanPosition k c = x, position w (Text.bytes text) k c.place = y at hposition ⊢
  cases hposition with
  | fault f => exact .fault f
  | @found p c hc =>
      have hflags := hc.skipWhile isFlag
      have hwidth := width_scans (k := k) hflags hw hlargest .width
      simp only [Checked.ok_bind]
      rw [flags_at hc hw, Checked.ok_bind]
      dsimp only
      generalize scanWidth .width k (c.skipWhile isFlag) = x,
        width w (Text.bytes text) .width k (c.skipWhile isFlag).place = y at hwidth ⊢
      cases hwidth with
      | fault f => exact .fault f
      | @found r d hd =>
          have hprecision := precision_scans (k := k) hd hw hlargest
          simp only [Checked.ok_bind]
          generalize scanPrecision k d = x, precision w (Text.bytes text) k d.place = y
            at hprecision ⊢
          cases hprecision with
          | fault f => exact .fault f
          | @found q e he =>
              obtain ⟨hseparator, hin⟩ := separator_eq he hw
              simp only [Checked.ok_bind]
              rw [hseparator]
              exact .found hin

/-! ### Text -/

theorem placeOrLast_eq (hc : c.In text) :
    placeOrLast (Text.bytes text) c.place = c.placeOrLast := by
  rw [placeOrLast, Cursor.placeOrLast, Text.length_bytes, ← hc.place_add]
  cases c.rest with
  | nil => simp [Text.byteLength]
  | cons x cs =>
      have := x.utf8Size_pos
      rw [Text.byteLength, if_neg (by omega), if_neg (by simp)]

theorem nextDirective?_skip (hbs : ∀ b ∈ bs, b ≠ '%') (hfits : w.Fits (n + bs.length)) :
    nextDirective? w (bs ++ cs) n = nextDirective? w cs (n + bs.length) := by
  induction bs generalizing n with
  | nil => rfl
  | cons b bs ih =>
      obtain ⟨hb, hbs⟩ := List.forall_mem_cons.mp hbs
      rw [List.length_cons, Nat.add_comm bs.length, ← Nat.add_assoc] at hfits ⊢
      rw [List.cons_append, nextDirective?, Word.add_eq (hfits.mono (Nat.le_add_right _ _)),
        Checked.ok_bind, ih hbs hfits]
      all_goals simp [hb]

theorem nextDirective?_eq (hfits : w.Fits (n + Text.byteLength cs)) :
    nextDirective? w (Text.bytes cs) n =
      .ok ((Cursor.nextDirective? n cs).map fun q => (q.1, q.1 + 1)) := by
  fun_induction Cursor.nextDirective? n cs with
  | case1 => rfl
  | case2 n cs ih =>
      rw [Text.byteLength, Text.byteLength, show '%'.utf8Size = 1 from rfl, ← Nat.add_assoc,
        ← Nat.add_assoc] at hfits
      have htwo := hfits.mono (Nat.le_add_right _ _)
      change nextDirective? w ('%' :: '%' :: Text.bytes cs) n = _
      rw [nextDirective?, Word.add_eq (htwo.mono (Nat.le_succ _)), Checked.ok_bind,
        Word.add_eq htwo, Checked.ok_bind, ih hfits]
  | case3 n cs hne =>
      rw [Text.byteLength, show '%'.utf8Size = 1 from rfl, ← Nat.add_assoc] at hfits
      change nextDirective? w ('%' :: Text.bytes cs) n = _
      rw [nextDirective?, Word.add_eq (hfits.mono (Nat.le_add_right _ _)), Checked.ok_bind,
        Checked.sub_eq (Nat.le_add_left _ _)]
      · rfl
      · intro ahead hahead
        obtain ⟨ds, rfl⟩ := Text.exists_of_bytes_eq (by decide) hahead
        exact hne ds rfl
  | case4 n c cs _ hc ih =>
      rw [Text.byteLength, ← Nat.add_assoc, ← Text.length_bytes_singleton] at hfits
      rw [← Text.length_bytes_singleton] at ih ⊢
      rw [← List.singleton_append, Text.bytes_append, nextDirective?_skip
        (Text.bytes_ne (by decide) hc) (hfits.mono (Nat.le_add_right _ _)), ih hfits]

theorem delimiter_skip {bytes : List Char} (hbs : ∀ b ∈ bs, b ≠ '%')
    (hfits : w.Fits (n + bs.length)) :
    delimiter w bytes k (bs ++ cs) n = delimiter w bytes k cs (n + bs.length) := by
  induction bs generalizing n with
  | nil => rfl
  | cons b bs ih =>
      obtain ⟨hb, hbs⟩ := List.forall_mem_cons.mp hbs
      rw [List.length_cons, Nat.add_comm bs.length, ← Nat.add_assoc] at hfits ⊢
      rw [List.cons_append, delimiter, Word.add_eq (hfits.mono (Nat.le_add_right _ _)),
        Checked.ok_bind, ih hbs hfits]
      all_goals simp [hb]

/-- Skipping a delimiter stops at the `)` before the place where scanning the characters stops. -/
inductive Closes (text : List Char) :
    Except Failure Cursor → Checked (Except Failure ℕ) → Prop where
  | fault (f : Failure) : Closes text (.error f) (.ok (.error f))
  | closed {d : Cursor} {p : ℕ} (h : d.In text) (hp : d.place = p + 1) :
      Closes text (.ok d) (.ok (.ok p))

theorem delimiter_closes (hc : Cursor.In text ⟨n, cs⟩) (hw : w.Fits (Text.byteLength text)) :
    Closes text (scanDelimiter k n cs) (delimiter w (Text.bytes text) k (Text.bytes cs) n) := by
  have hadd : ∀ {m x ds}, Cursor.In text ⟨m, x :: ds⟩ → w.add m 1 = .ok (m + 1) := by
    intro m x ds h
    exact add_place h hw rfl
  fun_induction scanDelimiter k n cs with
  | case1 n =>
      have hplace := placeOrLast_eq hc
      change Closes text _ (.ok (.error ⟨_, placeOrLast (Text.bytes text) n⟩))
      rw [hplace]
      exact .fault _
  | case2 n =>
      have hplace : placeOrLast (Text.bytes text) (n + 1) = n :=
        placeOrLast_eq (c := ⟨n + 1, []⟩) hc.cons
      change Closes text _ (delimiter w (Text.bytes text) k ['%'] n)
      rw [delimiter, hadd hc, Checked.ok_bind, hplace]
      exact .fault _
  | case3 n cs ih =>
      have hnext : Cursor.In text ⟨n + 1, '%' :: cs⟩ := hc.cons
      change Closes text _ (delimiter w (Text.bytes text) k ('%' :: '%' :: Text.bytes cs) n)
      rw [delimiter, hadd hc, Checked.ok_bind, hadd hnext, Checked.ok_bind]
      exact ih hnext.cons
  | case4 n cs =>
      change Closes text _ (delimiter w (Text.bytes text) k ('%' :: ')' :: Text.bytes cs) n)
      rw [delimiter, hadd hc, Checked.ok_bind]
      exact .closed hc.cons.cons rfl
  | case5 n c cs hdouble hclose =>
      -- the first byte of the character is neither of the two either
      obtain ⟨b, bs, hbytes, -⟩ := Text.exists_bytes_cons c
      have hb : b ∈ Text.bytes [c] := by
        rw [hbytes]
        exact List.mem_cons_self
      change Closes text _ (delimiter w (Text.bytes text) k ('%' :: Text.bytes (c :: cs)) n)
      rw [hbytes, delimiter, hadd hc, Checked.ok_bind]
      · exact .fault _
      · exact Text.bytes_ne (by decide) hdouble b hb
      · exact Text.bytes_ne (by decide) hclose b hb
  | case6 n c cs hlast hdouble hclose hother ih =>
      have hne : c ≠ '%' := by
        rintro rfl
        cases cs with
        | nil => exact hlast rfl rfl
        | cons d ds => exact hother d ds rfl rfl
      have hlength := Text.length_bytes_singleton c
      rw [← List.singleton_append, Text.bytes_append, delimiter_skip
        (Text.bytes_ne (by decide) hne), hlength]
      · exact ih hc.cons
      · apply hw.mono
        rw [← hc.place_add, hlength, Text.byteLength, ← Nat.add_assoc]
        exact Nat.le_add_right _ _

end ByteScan

end CatalogLint
