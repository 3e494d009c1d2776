import Mathlib.Data.Nat.Digits.Defs
import CatalogLint.Catalog.Escape
import CatalogLint.Proofs.Text.Split
import CatalogLint.Proofs.Text.Utf8

/-!
# Escape sequences undone

However a text is written, it is what its escape sequences denote, and without numeric sequences
nothing is damaged (`Escape.unescape_written`).
-/
namespace CatalogLint.Escape

variable {c : Char} {cs ds rest : List Char} {b : UInt8}

theorem bytes_literal (h : c ≠ '\\') (cs : List Char) :
    bytes (c :: cs) = String.utf8EncodeChar c ++ bytes cs := by
  rw [bytes, if_neg h]

theorem bytes_escape (cs : List Char) :
    bytes ('\\' :: cs) = (sequence cs).1 ++ bytes (sequence cs).2 := by
  rw [bytes, if_pos rfl]

/-! ### Sequences -/

theorem sequence_named (h : named c = some b) (cs : List Char) :
    sequence (c :: cs) = ([b], cs) := by
  rw [sequence, h]

/-- Any other sequence is kept as it is. -/
theorem sequence_unknown (hnamed : named c = none)
    (h : (isOctal c || c = 'x' && cs.head?.any isHex) = false) :
    sequence (c :: cs) = (92 :: String.utf8EncodeChar c, cs) := by
  rw [Bool.or_eq_false_iff] at h
  rw [sequence, hnamed]
  simp only [h.1, h.2]
  rfl

theorem named_eq_none (h : isOctal c = true ∨ c = 'x') : named c = none := by
  unfold named
  split <;> first | rfl | exact absurd h (by decide)

/-- A sequence of octal digits takes more of them, up to three. -/
theorem sequence_octal (hne : ds ≠ []) (hlength : ds.length ≤ 3)
    (hds : ∀ d ∈ ds, isOctal d = true) (rest : List Char) :
    let more := (rest.take (3 - ds.length)).takeWhile isOctal
    sequence (ds ++ rest) = ([byteOf 8 (ds ++ more)], rest.drop more.length) := by
  cases ds with
  | nil => exact absurd rfl hne
  | cons d ds =>
      obtain ⟨hd, hds⟩ := List.forall_mem_cons.mp hds
      rw [List.length_cons] at hlength
      have hmore : ((ds ++ rest).take 2).takeWhile isOctal =
          ds ++ (rest.take (3 - (ds.length + 1))).takeWhile isOctal := by
        rw [List.take_append, List.take_of_length_le (by omega),
          List.takeWhile_append_of_pos hds, show 3 - (ds.length + 1) = 2 - ds.length by omega]
      rw [List.cons_append, sequence, named_eq_none (.inl hd)]
      simp only [hd, if_true, hmore, List.length_append, List.length_cons,
        List.drop_length_add_append, List.cons_append]

theorem sequence_hex (hds : ∀ d ∈ ds, isHex d = true) (rest : List Char)
    (hne : ds ++ rest.takeWhile isHex ≠ []) : sequence ('x' :: (ds ++ rest)) =
      ([byteOf 16 (ds ++ rest.takeWhile isHex)], rest.dropWhile isHex) := by
  have htake : (ds ++ rest).takeWhile isHex = ds ++ rest.takeWhile isHex :=
    List.takeWhile_append_of_pos hds
  have hdrop : (ds ++ rest).dropWhile isHex = rest.dropWhile isHex :=
    List.dropWhile_append_of_pos hds
  have hhead : (ds ++ rest).head?.any isHex = true := by
    cases hcs : ds ++ rest with
    | nil => simp_all
    | cons d cs =>
        rw [← htake, hcs] at hne
        by_contra hd
        exact hne (List.takeWhile_cons_of_neg hd)
  rw [sequence, named_eq_none (.inr rfl)]
  simp only [htake, hdrop, hhead]
  rfl

/-- Octal digits are all of a sequence if they are three, or if no more of them follow. -/
theorem sequence_octal_append (hne : ds ≠ []) (hlength : ds.length ≤ 3)
    (hds : ∀ d ∈ ds, isOctal d = true)
    (hrest : ds.length = 3 ∨ ∀ d ∈ rest.head?, isOctal d = false) :
    sequence (ds ++ rest) = ([byteOf 8 ds], rest) := by
  have hmore : (rest.take (3 - ds.length)).takeWhile isOctal = [] := by
    rcases hrest with hthree | hrest
    · rw [hthree]
      rfl
    · refine takeWhile_of_head? fun d hd => hrest d ?_
      rw [List.head?_take] at hd
      split at hd
      · cases hd
      · exact hd
  rw [sequence_octal hne hlength hds, hmore, List.append_nil]
  rfl

/-- Hexadecimal digits are all of a sequence if no more of them follow. -/
theorem sequence_hex_append (hne : ds ≠ []) (hds : ∀ d ∈ ds, isHex d = true)
    (hrest : ∀ d ∈ rest.head?, isHex d = false) :
    sequence ('x' :: (ds ++ rest)) = ([byteOf 16 ds], rest) := by
  rw [sequence_hex hds rest (by simp [hne]), takeWhile_of_head? hrest, dropWhile_of_head? hrest,
    List.append_nil]

/-- The number that digits write. -/
def number (base : ℕ) (ds : List Char) : ℕ :=
  Nat.ofDigits base (ds.reverse.map digitValue)

theorem byteOf_eq (base : ℕ) (ds : List Char) :
    byteOf base ds = .ofNat (number base ds % 256) := by
  have hnumber : ds.foldl (fun n c => base * n + digitValue c) 0 = number base ds := by
    rw [number, Nat.ofDigits_eq_foldr, List.foldr_map, List.foldr_reverse]
    congr 1
    funext n c
    simp [Nat.add_comm]
  rw [byteOf, hnumber]
  exact UInt8.ofNat_mod_size.symm

theorem bytes_octal (hne : ds ≠ []) (hlength : ds.length ≤ 3) (hds : ∀ d ∈ ds, isOctal d = true)
    (hrest : ds.length = 3 ∨ ∀ d ∈ rest.head?, isOctal d = false) :
    bytes ('\\' :: (ds ++ rest)) = .ofNat (number 8 ds % 256) :: bytes rest := by
  rw [bytes_escape, sequence_octal_append hne hlength hds hrest, byteOf_eq]
  rfl

theorem bytes_hex (hne : ds ≠ []) (hds : ∀ d ∈ ds, isHex d = true)
    (hrest : ∀ d ∈ rest.head?, isHex d = false) :
    bytes ('\\' :: 'x' :: (ds ++ rest)) = .ofNat (number 16 ds % 256) :: bytes rest := by
  rw [bytes_escape, sequence_hex_append hne hds hrest, byteOf_eq]
  rfl

/-! ### Ways to write a text -/

/-- The characters that have a letter of their own behind a backslash. -/
def letters : List (Char × Char) :=
  [('n', '\n'), ('r', '\r'), ('t', '\t'), ('a', '\x07'), ('b', '\x08'), ('f', '\x0c'),
    ('v', '\x0b'), ('"', '"'), ('\\', '\\'), ('\'', '\''), ('?', '?')]

def WritesOctal (b : UInt8) (ds : List Char) : Prop :=
  ds.length = 3 ∧ (∀ d ∈ ds, isOctal d = true) ∧ number 8 ds = b.toNat

/-- Zeros may stand in front. -/
def WritesHex (b : UInt8) (ds : List Char) : Prop :=
  ds ≠ [] ∧ (∀ d ∈ ds, isHex d = true) ∧ number 16 ds = b.toNat

instance (b : UInt8) (ds : List Char) : Decidable (WritesOctal b ds) :=
  decidable_of_iff (ds.length = 3 ∧ ds.all isOctal = true ∧ number 8 ds = b.toNat) (by
    rw [WritesOctal, List.all_eq_true])

instance (b : UInt8) (ds : List Char) : Decidable (WritesHex b ds) :=
  decidable_of_iff (ds ≠ [] ∧ ds.all isHex = true ∧ number 16 ds = b.toNat) (by
    rw [WritesHex, List.all_eq_true])

/-- The ways to write a text, character by character. Hexadecimal digits have to end where the
bytes of a character do. -/
inductive Written : List Char → List Char → Prop where
  | nil : Written [] []
  | literal {c t w} : c ≠ '\\' → Written t w → Written (c :: t) (c :: w)
  | named {c letter t w} : (letter, c) ∈ letters → Written t w →
      Written (c :: t) ('\\' :: letter :: w)
  | octal {c dss t w} : List.Forall₂ WritesOctal (String.utf8EncodeChar c) dss → Written t w →
      Written (c :: t) (dss.flatMap ('\\' :: ·) ++ w)
  | hex {c dss t w} : List.Forall₂ WritesHex (String.utf8EncodeChar c) dss →
      (∀ d ∈ w.head?, isHex d = false) → Written t w →
      Written (c :: t) (dss.flatMap ('\\' :: 'x' :: ·) ++ w)

theorem named_of_mem_letters : ∀ p ∈ letters,
    (named p.1).map ([·]) = some (String.utf8EncodeChar p.2) := by
  decide

theorem bytes_writesOctal {bs : List UInt8} {dss : List (List Char)}
    (h : List.Forall₂ WritesOctal bs dss) (rest : List Char) :
    bytes (dss.flatMap ('\\' :: ·) ++ rest) = bs ++ bytes rest := by
  induction h with
  | nil => rfl
  | @cons b ds bs dss hds _ ih =>
      obtain ⟨hlength, hoctal, hnumber⟩ := hds
      rw [List.flatMap_cons, List.append_assoc, List.cons_append,
        bytes_octal (by rintro rfl; cases hlength) hlength.le hoctal (.inl hlength), ih, hnumber,
        Nat.mod_eq_of_lt b.toNat_lt, UInt8.ofNat_toNat, List.cons_append]

theorem bytes_writesHex {bs : List UInt8} {dss : List (List Char)}
    (h : List.Forall₂ WritesHex bs dss) (hrest : ∀ d ∈ rest.head?, isHex d = false) :
    bytes (dss.flatMap ('\\' :: 'x' :: ·) ++ rest) = bs ++ bytes rest := by
  induction h with
  | nil => rfl
  | @cons b ds bs dss hds hdss ih =>
      obtain ⟨hne, hhex, hnumber⟩ := hds
      -- The next digits stand behind a backslash, which is no digit.
      have hnext : ∀ d ∈ (dss.flatMap ('\\' :: 'x' :: ·) ++ rest).head?, isHex d = false := by
        cases hdss with
        | nil => exact hrest
        | cons =>
            intro d hd
            cases hd
            decide
      rw [List.flatMap_cons, List.append_assoc, List.cons_append, List.cons_append,
        bytes_hex hne hhex hnext, ih, hnumber, Nat.mod_eq_of_lt b.toNat_lt, UInt8.ofNat_toNat,
        List.cons_append]

/-- What is written denotes the bytes of the text. -/
theorem Written.bytes_eq {t w : List Char} (h : Written t w) : bytes w = Text.encode t := by
  induction h with
  | nil => rw [bytes, Text.encode, List.flatMap_nil]
  | literal hc _ ih => rw [bytes_literal hc, ih]; rfl
  | @named c letter t w hletter _ ih =>
      obtain ⟨b, hb, hc⟩ := Option.map_eq_some_iff.mp (named_of_mem_letters _ hletter)
      rw [bytes_escape, sequence_named hb, ih, hc]
      rfl
  | octal hdss _ ih => rw [bytes_writesOctal hdss, ih]; rfl
  | hex hdss hw _ ih => rw [bytes_writesHex hdss hw, ih]; rfl

/-- No sequence of the string is numeric. -/
def isPlain : List Char → Bool
  | '\\' :: c :: cs => !(isOctal c || c = 'x' && cs.head?.any isHex) && isPlain cs
  | _ :: cs => isPlain cs
  | [] => true

theorem exists_letter (h : named c = some b) : ∃ p ∈ letters, p.1 = c := by
  unfold named at h
  split at h
  case h_12 => cases h
  all_goals decide

theorem count_letters : ∀ p ∈ letters, p.1 ≠ Text.replacement ∧ p.2 ≠ Text.replacement := by
  decide

/-- A string without numeric sequences denotes a text, in which no character is replaced. -/
theorem exists_of_isPlain (h : isPlain cs = true) :
    ∃ t, bytes cs = Text.encode t ∧ t.count Text.replacement = cs.count Text.replacement := by
  fun_induction isPlain cs with
  | case1 c cs ih =>
      rw [Bool.and_eq_true] at h
      obtain ⟨hc, hcs⟩ := h
      obtain ⟨t, ht, hcount⟩ := ih hcs
      rw [bytes_escape]
      cases hnamed : named c with
      | some b =>
          obtain ⟨p, hp, rfl⟩ := exists_letter hnamed
          obtain ⟨b, hb, hchar⟩ := Option.map_eq_some_iff.mp (named_of_mem_letters p hp)
          obtain ⟨hletter, hplain⟩ := count_letters p hp
          refine ⟨p.2 :: t, ?_, ?_⟩
          · rw [sequence_named hb, ht, hchar]
            rfl
          · rw [List.count_cons_of_ne hplain, List.count_cons_of_ne (by decide),
              List.count_cons_of_ne hletter, hcount]
      | none =>
          refine ⟨'\\' :: c :: t, ?_, ?_⟩
          · rw [sequence_unknown hnamed ((Bool.not_eq_true' _).mp hc), ht]
            rfl
          · rw [List.count_cons, List.count_cons, hcount, ← List.count_cons, ← List.count_cons]
  | case2 c cs hne ih =>
      by_cases hc : c = '\\'
      · cases cs with
        | nil => exact ⟨['\\'], by rw [hc, bytes_escape, sequence, bytes]; rfl, by rw [hc]⟩
        | cons d ds => exact absurd rfl (hne d ds hc)
      · obtain ⟨t, ht, hcount⟩ := ih h
        exact ⟨c :: t, by rw [bytes_literal hc, ht]; rfl, by
          rw [List.count_cons, hcount, ← List.count_cons]⟩
  | case3 => exact ⟨[], by rw [bytes]; rfl, rfl⟩

/-- Every way to write a text denotes it. Without numeric sequences no character is damaged, and
the numbers of numeric ones count modulo 256. -/
theorem unescape_written :
    (∀ t w, Written t w → unescape (.ofList w) = .ofList t) ∧
    (∀ s : String, isPlain s.toList = true →
      Text.isDamaged (Text.Utf8.decode (bytes s.toList)) = false ∧
        (unescape s).toList.count Text.replacement = s.toList.count Text.replacement) ∧
    (∀ ds rest, ds ≠ [] → ds.length ≤ 3 → (∀ d ∈ ds, isOctal d = true) →
      (ds.length = 3 ∨ ∀ d ∈ rest.head?, isOctal d = false) →
      bytes ('\\' :: (ds ++ rest)) = .ofNat (number 8 ds % 256) :: bytes rest) ∧
    (∀ ds rest, ds ≠ [] → (∀ d ∈ ds, isHex d = true) → (∀ d ∈ rest.head?, isHex d = false) →
      bytes ('\\' :: 'x' :: (ds ++ rest)) = .ofNat (number 16 ds % 256) :: bytes rest) := by
  refine ⟨fun t w h => ?_, fun s h => ?_, fun ds rest => bytes_octal, fun ds rest => bytes_hex⟩
  · rw [unescape, String.toList_ofList, h.bytes_eq, Text.ofBytes_encode]
  · obtain ⟨t, ht, hcount⟩ := exists_of_isPlain h
    rw [unescape, ht, Text.ofBytes_encode, String.toList_ofList, Text.Utf8.decode_encode]
    refine ⟨?_, hcount⟩
    simp [Text.isDamaged]

/-- Every way is taken, and behind the digits of a sequence stand digits that are not part of it. -/
theorem unescape_written_ways :
    let t := ['é', '\n', '4', 'a', '8', '8']
    let w := ['\\', 'x', 'C', '3', '\\', 'x', '0', '0', 'a', '9', '\\', 'n', '\\', '0', '6', '4',
      'a', '\\', '0', '7', '0', '8']
    Written t w ∧ unescape (.ofList w) = .ofList t ∧
      Text.isDamaged (Text.Utf8.decode (bytes "\\q\\x \\t%\\é\\".toList)) = false ∧
      bytes ['\\', '4', '0', '1', '1'] = 1 :: bytes ['1'] ∧
      bytes ['\\', 'x', '0', '1', 'f', 'F', 'g'] = 255 :: bytes ['g'] := by
  intro t w
  obtain ⟨hwritten, hplain, hoctal, hhex⟩ := unescape_written
  have hfour : List.Forall₂ WritesOctal (String.utf8EncodeChar '4') [['0', '6', '4']] :=
    .cons (by decide) .nil
  have height : List.Forall₂ WritesOctal (String.utf8EncodeChar '8') [['0', '7', '0']] :=
    .cons (by decide) .nil
  have haccent : List.Forall₂ WritesHex (String.utf8EncodeChar 'é')
      [['C', '3'], ['0', '0', 'a', '9']] :=
    .cons (by decide) (.cons (by decide) .nil)
  have hw : Written t w :=
    .hex haccent (by rintro d ⟨⟩; decide) (.named (by decide) (.octal hfour (.literal (by decide)
      (.octal height (.literal (by decide) .nil)))))
  refine ⟨hw, hwritten t w hw, (hplain _ (by decide +kernel)).1, ?_, ?_⟩
  · exact hoctal ['4', '0', '1'] ['1'] (by decide) (by decide) (List.all_eq_true.mp (by decide))
      (.inl rfl)
  · exact hhex ['0', '1', 'f', 'F'] ['g'] (by decide) (List.all_eq_true.mp (by decide))
      (by rintro d ⟨⟩; decide)

end CatalogLint.Escape
