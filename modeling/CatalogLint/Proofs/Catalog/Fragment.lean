import CatalogLint.Proofs.Catalog.Escape
import CatalogLint.Proofs.Catalog.Message

/-!
# Sequences across strings

The strings of a message are joined before their escape sequences are undone. What they denote
together is what each of them denotes on its own, unless a numeric sequence at the end of one goes
on in the next one (`Escape.bytes_flatten_iff`, `Catalog.stream_strings`).
-/
namespace CatalogLint

namespace Escape

/-- What follows the backslash of the sequence at the end of a string, if there is one. -/
def lastSequence? : List Char → Option (List Char)
  | [] => none
  | c :: cs =>
      if c = '\\' then
        have := length_sequence cs
        if (sequence cs).2 = [] then some cs else lastSequence? (sequence cs).2
      else lastSequence? cs
  termination_by cs => cs.length

/-- The character would be part of a sequence at the end of a string, if it came next. -/
def takes : List Char → Char → Bool
  | [], _ => true
  | d :: ds, c => if d = 'x' then isHex c else isOctal d && ds.length < 2 && isOctal c

/-- A sequence at the end of the first string goes on in the second one. -/
def Extends (f g : List Char) : Prop :=
  ∃ s ∈ lastSequence? f, ∃ c ∈ g.head?, takes s c = true

variable {b d : Char} {cs ds f g : List Char}

/-! ### A sequence and what comes next -/

/-- What may stand behind the backslash of a sequence. -/
inductive Whole : List Char → Prop where
  | lone : Whole []
  | octal {ds : List Char} : ds ≠ [] → ds.length ≤ 3 → (∀ c ∈ ds, isOctal c = true) → Whole ds
  | hex {ds : List Char} : (∀ c ∈ ds, isHex c = true) → Whole ('x' :: ds)
  | single {c : Char} : isOctal c = false → c ≠ 'x' → Whole [c]

theorem ne_x_of_isOctal (h : isOctal d = true) : d ≠ 'x' := by
  rintro rfl
  revert h
  decide

theorem takes_octal (hd : isOctal d = true) (ds : List Char) (c : Char) :
    takes (d :: ds) c = (decide (ds.length < 2) && isOctal c) := by
  rw [takes, if_neg (ne_x_of_isOctal hd), hd, Bool.true_and]

/-- Octal digits up to a number of them, and what follows. -/
theorem exists_octal (n : ℕ) (cs : List Char) :
    ∃ ds rest, cs = ds ++ rest ∧ ds.length ≤ n ∧ (∀ d ∈ ds, isOctal d = true) ∧
      (ds.length = n ∨ ∀ c ∈ rest.head?, isOctal c = false) := by
  induction n generalizing cs with
  | zero => exact ⟨[], cs, rfl, Nat.le_refl 0, List.forall_mem_nil _, .inl rfl⟩
  | succ n ih =>
      cases cs with
      | nil => exact ⟨[], [], rfl, Nat.zero_le _, List.forall_mem_nil _, .inr (by simp)⟩
      | cons c cs =>
          by_cases hc : isOctal c = true
          · obtain ⟨ds, rest, rfl, hlength, hds, hrest⟩ := ih cs
            exact ⟨c :: ds, rest, rfl, Nat.succ_le_succ hlength, List.forall_mem_cons.mpr ⟨hc, hds⟩,
              hrest.imp_left (congrArg (· + 1))⟩
          · refine ⟨[], c :: cs, rfl, Nat.zero_le _, List.forall_mem_nil _, .inr fun d hd => ?_⟩
            cases hd
            exact Bool.eq_false_iff.mpr hc

/-- Every string starts with what a backslash before it would take. -/
theorem exists_whole (cs : List Char) :
    ∃ s rest, cs = s ++ rest ∧ Whole s ∧ ∀ c ∈ rest.head?, takes s c = false := by
  cases cs with
  | nil => exact ⟨[], [], rfl, .lone, nofun⟩
  | cons d ds =>
      by_cases hd : isOctal d = true
      · obtain ⟨ds, rest, rfl, hlength, hds, hrest⟩ := exists_octal 2 ds
        refine ⟨d :: ds, rest, rfl,
          .octal (List.cons_ne_nil d ds) (Nat.succ_le_succ hlength)
          (List.forall_mem_cons.mpr ⟨hd, hds⟩), fun c hc => ?_⟩
        rw [takes_octal hd]
        rcases hrest with htwo | hrest
        · simp [htwo]
        · simp [hrest c hc]
      by_cases hx : d = 'x'
      · subst hx
        refine ⟨'x' :: ds.takeWhile isHex, ds.dropWhile isHex,
          congrArg ('x' :: ·) List.takeWhile_append_dropWhile.symm,
          .hex fun c hc => List.all_eq_true.mp List.all_takeWhile c hc, fun c hc => ?_⟩
        have hnot := List.head?_dropWhile_not isHex ds
        rw [Option.mem_def.mp hc] at hnot
        simpa [takes] using hnot
      · exact ⟨[d], ds, rfl, .single (Bool.eq_false_iff.mpr hd) hx, fun c _ => by
          simp [takes, hd, hx]⟩

/-- A sequence ends where the next character is not part of it. -/
theorem Whole.sequence_append {s rest : List Char} (h : Whole s)
    (hrest : ∀ c ∈ rest.head?, takes s c = false) :
    sequence (s ++ rest) = ((sequence s).1, rest) := by
  cases h with
  | lone =>
      cases rest with
      | nil => rfl
      | cons c rest => cases hrest c rfl
  | @octal ds hne hlength hds =>
      obtain ⟨d, ds, rfl⟩ := List.exists_cons_of_ne_nil hne
      have hclosed : (d :: ds).length = 3 ∨ ∀ c ∈ rest.head?, isOctal c = false := by
        by_cases hfull : ds.length < 2
        · refine .inr fun c hc => ?_
          simpa [takes_octal (hds d List.mem_cons_self), hfull] using hrest c hc
        · rw [List.length_cons] at hlength ⊢
          omega
      have hself : sequence ((d :: ds) ++ []) = ([byteOf 8 (d :: ds)], []) :=
        sequence_octal_append hne hlength hds (.inr nofun)
      rw [List.append_nil] at hself
      rw [hself, sequence_octal_append hne hlength hds hclosed]
  | @hex ds hds =>
      have hrest : ∀ c ∈ rest.head?, isHex c = false := fun c hc => by
        simpa [takes] using hrest c hc
      cases ds with
      | nil =>
          have hhead : rest.head?.any isHex = false := by
            cases rest with
            | nil => rfl
            | cons c rest => exact hrest c rfl
          exact sequence_unknown (named_eq_none (.inr rfl)) (by
            rw [List.append_eq, List.nil_append, hhead]
            rfl)
      | cons d ds =>
          have hself : sequence ('x' :: (d :: ds ++ [])) = ([byteOf 16 (d :: ds)], []) :=
            sequence_hex_append (List.cons_ne_nil d ds) hds nofun
          rw [List.append_nil] at hself
          rw [hself]
          exact sequence_hex_append (List.cons_ne_nil d ds) hds hrest
  | @single c hoctal hx =>
      cases hc : named c with
      | some b => rw [List.singleton_append, sequence_named hc, sequence_named hc]
      | none =>
          have hunknown (cs : List Char) :
              sequence (c :: cs) = (92 :: String.utf8EncodeChar c, cs) :=
            sequence_unknown hc (by simp [hoctal, hx])
          rw [List.singleton_append, hunknown, hunknown]

/-- A sequence that takes the next character is a single byte together with it. -/
theorem Whole.sequence_takes {s : List Char} {c : Char} (h : Whole s) (hs : s ≠ [])
    (hc : takes s c = true) (g : List Char) : ∃ b more rest, c :: g = more ++ rest ∧ more ≠ [] ∧
      (∀ d ∈ more, d ≠ '\\') ∧ sequence (s ++ c :: g) = ([b], rest) := by
  cases h with
  | lone => exact absurd rfl hs
  | @octal ds hne hlength hds =>
      obtain ⟨d, ds, rfl⟩ := List.exists_cons_of_ne_nil hne
      rw [takes_octal (hds d List.mem_cons_self), Bool.and_eq_true, decide_eq_true_iff] at hc
      have hmore : ((c :: g).take (3 - (d :: ds).length)).takeWhile isOctal <+: c :: g :=
        (List.takeWhile_prefix _).trans (List.take_prefix _ _)
      refine ⟨_, _, _, (List.prefix_iff_eq_append.mp hmore).symm, ?_, ?_,
        sequence_octal hne hlength hds (c :: g)⟩
      · obtain ⟨n, hn⟩ : ∃ n, 3 - (d :: ds).length = n + 1 := ⟨1 - ds.length, by
          rw [List.length_cons]
          omega⟩
        rw [hn, List.take_succ_cons, List.takeWhile_cons_of_pos hc.2]
        exact List.cons_ne_nil _ _
      · rintro d hd rfl
        exact absurd (List.all_eq_true.mp List.all_takeWhile _ hd) (by decide)
  | @hex ds hds =>
      have hc : isHex c = true := by simpa [takes] using hc
      refine ⟨_, (c :: g).takeWhile isHex, _, List.takeWhile_append_dropWhile.symm, ?_, ?_,
        sequence_hex hds (c :: g) (by simp [hc])⟩
      · simp [hc]
      · rintro d hd rfl
        exact absurd (List.all_eq_true.mp List.all_takeWhile _ hd) (by decide)
  | single hoctal hx => simp [takes, hoctal, hx] at hc

/-- A backslash at the end of a string starts a whole sequence. -/
theorem whole_of_sequence (h : (sequence cs).2 = []) : Whole cs := by
  obtain ⟨s, rest, rfl, hs, hrest⟩ := exists_whole cs
  rw [hs.sequence_append hrest] at h
  subst h
  rwa [List.append_nil]

/-- A sequence that does not end a string is not changed by what comes after the string. -/
theorem sequence_append (h : (sequence cs).2 ≠ []) (g : List Char) :
    sequence (cs ++ g) = ((sequence cs).1, (sequence cs).2 ++ g) := by
  obtain ⟨s, rest, rfl, hs, hrest⟩ := exists_whole cs
  have hself := hs.sequence_append hrest
  rw [hself] at h ⊢
  rw [List.append_assoc]
  refine hs.sequence_append fun c hc => hrest c ?_
  rwa [List.head?_append_of_ne_nil rest h] at hc

/-! ### Strings one after another -/

theorem lastSequence?_literal (hd : d ≠ '\\') : lastSequence? (d :: ds) = lastSequence? ds := by
  rw [lastSequence?, if_neg hd]

theorem lastSequence?_escape (cs : List Char) : lastSequence? ('\\' :: cs) =
    if (sequence cs).2 = [] then some cs else lastSequence? (sequence cs).2 := by
  rw [lastSequence?, if_pos rfl]

/-- A string in which no sequence goes on denotes on its own what it does before the other one. -/
theorem bytes_append_of_not_extends (h : ¬Extends f g) : bytes (f ++ g) = bytes f ++ bytes g := by
  fun_induction lastSequence? f with
  | case1 => rw [bytes, List.nil_append, List.nil_append]
  | case2 cs _ hlast =>
      have hclosed : ∀ c ∈ g.head?, takes cs c = false := fun c hc => by
        by_contra htakes
        refine h ⟨cs, ?_, c, hc, Bool.not_eq_false _ ▸ htakes⟩
        rw [lastSequence?_escape, if_pos hlast]
        rfl
      rw [List.cons_append, bytes_escape, bytes_escape,
        (whole_of_sequence hlast).sequence_append hclosed, hlast, bytes, List.append_nil]
  | case3 cs _ hlast ih =>
      rw [Extends, lastSequence?_escape, if_neg hlast] at h
      rw [List.cons_append, bytes_escape, bytes_escape, sequence_append hlast, ih h,
        List.append_assoc]
  | case4 c cs hc ih =>
      rw [Extends, lastSequence?_literal hc] at h
      rw [List.cons_append, bytes_literal hc, bytes_literal hc, ih h, List.append_assoc]

/-- Every sequence denotes something. -/
theorem sequence_ne_nil (cs : List Char) : (sequence cs).1 ≠ [] := by
  cases cs with
  | nil => exact List.cons_ne_nil _ _
  | cons c cs =>
      rw [sequence]
      repeat' split
      all_goals exact List.cons_ne_nil _ _

theorem length_bytes_literals {ds : List Char} (h : ∀ d ∈ ds, d ≠ '\\') (rest : List Char) :
    ds.length + (bytes rest).length ≤ (bytes (ds ++ rest)).length := by
  induction ds with
  | nil => exact (Nat.zero_add _).le
  | cons d ds ih =>
      obtain ⟨hd, hds⟩ := List.forall_mem_cons.mp h
      have hrest := ih hds
      have hsize := d.utf8Size_pos
      rw [List.cons_append, bytes_literal hd, List.length_append, List.length_cons,
        String.length_utf8EncodeChar]
      omega

/-- A sequence that goes on in the next string denotes less than the strings on their own. -/
theorem length_bytes_of_extends (hlone : lastSequence? f ≠ some []) (h : Extends f g) :
    (bytes (f ++ g)).length < (bytes f).length + (bytes g).length := by
  fun_induction lastSequence? f with
  | case1 =>
      obtain ⟨s, hs, -⟩ := h
      rw [lastSequence?] at hs
      cases hs
  | case2 cs _ hlast =>
      obtain ⟨s, hs, c, hc, htakes⟩ := h
      rw [lastSequence?_escape, if_pos hlast] at hs
      cases hs
      obtain ⟨g, rfl⟩ := List.head?_eq_some_iff.mp hc
      obtain ⟨b, more, rest, hg, hmore, hplain, hsequence⟩ :=
        (whole_of_sequence hlast).sequence_takes (fun h => hlone (congrArg some h)) htakes g
      have hbyte := List.length_pos_of_ne_nil (sequence_ne_nil cs)
      have hrest := length_bytes_literals hplain rest
      have hpos := List.length_pos_of_ne_nil hmore
      rw [← hg] at hrest
      rw [List.cons_append, bytes_escape, bytes_escape, hsequence, List.length_append,
        List.length_append, List.length_singleton]
      dsimp only
      omega
  | case3 cs _ hlast ih =>
      rw [Extends, lastSequence?_escape, if_neg hlast] at h
      have := ih hlone h
      rw [List.cons_append, bytes_escape, bytes_escape, sequence_append hlast, List.length_append,
        List.length_append]
      dsimp only
      omega
  | case4 c cs hc ih =>
      rw [Extends, lastSequence?_literal hc] at h
      have := ih hlone h
      rw [List.cons_append, bytes_literal hc, bytes_literal hc, List.length_append,
        List.length_append]
      omega

/-- No sequence in the strings goes on in the strings behind it. -/
def Separate : List (List Char) → Prop
  | [] => True
  | f :: fs => ¬Extends f fs.flatten ∧ Separate fs

variable {fs : List (List Char)}

theorem length_bytes_flatten_le (h : ∀ f ∈ fs, lastSequence? f ≠ some []) :
    (bytes fs.flatten).length ≤ (fs.flatMap bytes).length := by
  induction fs with
  | nil => rw [List.flatten_nil, bytes]; exact Nat.le_refl 0
  | cons f fs ih =>
      obtain ⟨hf, hfs⟩ := List.forall_mem_cons.mp h
      have := ih hfs
      rw [List.flatten_cons, List.flatMap_cons, List.length_append]
      by_cases hextends : Extends f fs.flatten
      · have := length_bytes_of_extends hf hextends
        omega
      · rw [bytes_append_of_not_extends hextends, List.length_append]
        omega

theorem Separate.bytes_flatten (h : Separate fs) : bytes fs.flatten = fs.flatMap bytes := by
  induction fs with
  | nil => rw [List.flatten_nil, bytes, List.flatMap_nil]
  | cons f fs ih =>
      rw [List.flatten_cons, List.flatMap_cons, bytes_append_of_not_extends h.1, ih h.2]

/-- Strings denote together what they denote on their own, unless a sequence goes on from one to
the next. -/
theorem bytes_flatten_iff (h : ∀ f ∈ fs, lastSequence? f ≠ some []) :
    bytes fs.flatten = fs.flatMap bytes ↔ Separate fs := by
  refine ⟨fun heq => ?_, Separate.bytes_flatten⟩
  induction fs with
  | nil => trivial
  | cons f fs ih =>
      obtain ⟨hf, hfs⟩ := List.forall_mem_cons.mp h
      rw [List.flatten_cons, List.flatMap_cons] at heq
      by_cases hextends : Extends f fs.flatten
      · have hless := length_bytes_of_extends hf hextends
        have hle := length_bytes_flatten_le hfs
        rw [heq, List.length_append] at hless
        omega
      · rw [bytes_append_of_not_extends hextends] at heq
        exact ⟨hextends, ih hfs (List.append_cancel_left heq)⟩

end Escape

namespace Reader
open Escape
variable [Charsets] {set : Option Charset} {e : Entry} {run : List (ℕ × List UInt8)} {field : Field}
  {m : Message}

/-- Every message is spelled by lines of its run. -/
theorem MadeOf.exists_sets (h : MadeOf set e run) (hm : e.messageAt? field = some m) :
    ∃ line after, Sets run field m.line line after ∧
      m.text = textOf set (line :: continuations Opens after) := by
  have hset : ∃ l ∈ run, keywordOf? l.2 = some field := by
    by_contra hnone
    rw [h.missing field fun l hl hkeyword => hnone ⟨l, hl, hkeyword⟩] at hm
    cases hm
  obtain ⟨n, line, after, hsets⟩ := Reader.exists_sets hset
  have hspelled := (h.spelled hsets).1
  rw [hm] at hspelled
  cases hspelled
  exact ⟨line, after, hsets, rfl⟩

/-- The text that strings denote together. Unless a backslash stands alone at the end of one, they
denote the same bytes as each of them on its own exactly if no sequence goes on from one to the
next. -/
structure Spelled (strings : List (List Char)) (text : String) : Prop where
  together : text = .ofList (Text.ofBytes (bytes strings.flatten))
  separate : Separate strings → text = .ofList (Text.ofBytes (strings.flatMap bytes))
  separate_iff : (∀ s ∈ strings, lastSequence? s ≠ some []) →
    (bytes strings.flatten = strings.flatMap bytes ↔ Separate strings)

theorem spelled_textOf (set : Option Charset) (lines : List (List UInt8)) :
    Spelled (lines.map (stringIn set)) (textOf set lines) := by
  have htext : textOf set lines =
      .ofList (Text.ofBytes (bytes (lines.map (stringIn set)).flatten)) := by
    rw [textOf, unescape, String.toList_ofList, List.flatMap_def]
  exact ⟨htext, fun h => by rw [htext, h.bytes_flatten], bytes_flatten_iff⟩

end Reader

namespace Catalog
open Reader Escape

/-- Every message in UTF-8 is what its strings denote, each on its own unless a sequence goes on
from one to the next. -/
theorem stream_strings [Charsets] (data : List UInt8) (i : ℕ) (run : List (ℕ × List UInt8))
    (hrun : (maximalRuns data)[i]? = some run) (hset : charsetAt data i = none) :
    ∃ e, (stream data).entries[i]? = some e ∧ ∀ field m, e.messageAt? field = some m →
      ∃ line after, Sets run field m.line line after ∧
        Spelled ((line :: continuations Opens after).map (stringIn none)) m.text := by
  refine ⟨entryOf none run, ?_, fun field m hm => ?_⟩
  · rw [getElem?_stream, hrun, hset]
    rfl
  obtain ⟨line, after, hsets, htext⟩ := (madeOf_entryOf none run).exists_sets hm
  refine ⟨line, after, hsets, ?_⟩
  rw [htext]
  exact spelled_textOf none _

/-- A character may be spelled by sequences in two strings. -/
theorem stream_strings_split :
    let data := "msgid \"\\303\"\n\"\\251\"\nmsgstr \"\"\n".toUTF8.toList
    let run := numbered data
    (maximalRuns data)[0]? = some run ∧ charsetAt data 0 = none ∧
      ∃ e, (stream data).entries[0]? = some e ∧ e.messageAt? .message = some ⟨1, "é"⟩ ∧
        ∃ line after, Sets run .message 1 line after ∧
          Spelled ((line :: continuations Opens after).map (stringIn none)) "é" := by
  intro data run
  have hrun : (maximalRuns data)[0]? = some run := by decide +kernel
  obtain ⟨e, he, hstrings⟩ := stream_strings data 0 run hrun rfl
  have hmessage : (stream data).entries[0]?.map (·.messageAt? .message) = some (some ⟨1, "é"⟩) := by
    rw [stream_eq_read]
    decide +kernel
  rw [he, Option.map_some, Option.some.injEq] at hmessage
  exact ⟨hrun, rfl, e, he, hmessage, hstrings .message ⟨1, "é"⟩ hmessage⟩

/-- The digit in the second string is read as part of the sequence in the first one. -/
theorem not_strings_separate :
    let data := "msgid \"\\x4\"\n\"1\"\nmsgstr \"\"\n".toUTF8.toList
    let line := ascii "msgid \"\\x4\""
    let after := [(2, ascii "\"1\""), (3, ascii "msgstr \"\"")]
    let strings := (line :: continuations Opens after).map (stringIn none)
    charsetAt data 0 = none ∧ (maximalRuns data)[0]? = some ((1, line) :: after) ∧
      Sets ((1, line) :: after) .message 1 line after ∧
      (∀ s ∈ strings, lastSequence? s ≠ some []) ∧ strings.flatMap bytes = [4, 49] ∧
      (stream data).entries.map (·.messageAt? .message) = [some ⟨1, "A"⟩] := by
  intro data line after strings
  rw [stream_eq_read]
  refine ⟨rfl, ?_⟩
  decide +kernel

end Catalog

end CatalogLint
