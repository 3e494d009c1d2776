import Mathlib.Data.List.Induction
import Mathlib.Data.Nat.Notation
import CatalogLint.Catalog.Reader

/-!
# Lines of an entry

An entry starts at the first line of its run, and each of its messages at the last line of the run
that has the keyword of the message (`Reader.line_entryOf`, `Reader.lineAt?_entryOf`). Strings that
continue a message, escapes and flags leave the lines as they are.
-/
namespace CatalogLint

open Reader

namespace Text

theorem dropStart?_eq_some {α : Type} [DecidableEq α] {start as rest : List α}
    (h : dropStart? start as = some rest) : as = start ++ rest := by
  fun_induction dropStart? start as with
  | case1 as => cases h; rfl
  | case2 => cases h
  | case3 s ss as ih => rw [ih h, List.cons_append]
  | case4 => cases h

end Text

namespace Entry

def messageAt? (e : Entry) : Field → Option Message
  | .comment => none
  | .context => e.context
  | .message => e.message
  | .plural => e.plural
  | .translation i => e.translation? i

/-- An entry with the flags of another one. -/
def withFlagsOf (e f : Entry) : Entry :=
  { e with
    fuzzy := f.fuzzy
    unchecked := f.unchecked
    uncheckedRules := f.uncheckedRules
    format := f.format }

/-- The line where a message of an entry starts. -/
def lineAt? (e : Entry) (field : Field) : Option ℕ :=
  (e.messageAt? field).map Message.line

theorem find?_insertTranslation (i j : ℕ) (m : Message) (ts : List (ℕ × Message)) :
    (insertTranslation i m ts).find? (·.1 = j) =
      if i = j then some (i, m) else ts.find? (·.1 = j) := by
  induction ts with
  | nil => by_cases h : i = j <;> simp [insertTranslation, h]
  | cons t ts ih =>
      obtain ⟨k, n⟩ := t
      rw [insertTranslation]
      by_cases h : i = j
      · subst j
        split
        · simp
        · split
          · simp
          · rw [List.find?_cons_of_neg (by simpa using Ne.symm ‹_›), ih, if_pos rfl, if_pos rfl]
      · split
        · simp [h]
        · split
          · subst i
            simp [h]
          · simp only [List.find?_cons, ih, if_neg h]

variable (e : Entry) (field : Field)

@[simp] theorem messageAt?_atLine (n : ℕ) : (Entry.atLine n).messageAt? field = none := by
  cases field <;> rfl

theorem messageAt?_setTranslation (i : ℕ) (m : Message) :
    (e.setTranslation i m).messageAt? field =
      if field = .translation i then some m else e.messageAt? field := by
  cases field with
  | translation j =>
      simp only [messageAt?, translation?, setTranslation, find?_insertTranslation]
      by_cases h : i = j
      · simp [h]
      · simp [h, Ne.symm h]
  | _ => rfl

/-- Translations that are changed in place are found where they were. -/
theorem translation?_map (f : ℕ × Message → Message) (i : ℕ) :
    { e with translations := e.translations.map fun t : ℕ × Message => (t.1, f t) }.translation? i =
      (e.translation? i).map fun m => f (i, m) := by
  simp only [translation?, List.find?_map, Option.map_map]
  refine Option.map_congr fun t ht => ?_
  have hi : t.1 = i := by simpa using List.find?_some ht
  subst hi
  rfl

theorem messageAt?_unescape :
    e.unescape.messageAt? field = (e.messageAt? field).map Message.unescape := by
  cases field with
  | translation i => exact e.translation?_map (·.2.unescape) i
  | _ => rfl

/-- A string is added to the message that is continued, and to no other one. -/
theorem messageAt?_continueMessage (current : Field) (s : String) :
    (continueMessage e current s).messageAt? field =
      if current = field then (e.messageAt? field).map (·.append s) else e.messageAt? field := by
  cases current with
  | translation i =>
      cases field with
      | translation j =>
          have hmap := e.translation?_map (fun t => if t.1 = i then t.2.append s else t.2) j
          refine hmap.trans ?_
          by_cases h : i = j
          · simp [h, messageAt?]
          · simp [h, Ne.symm h, messageAt?]
      | _ => rfl
  | _ => cases field <;> rfl

theorem messageAt?_setMessage {changed : Field} (h : changed ≠ .comment) (m : Message) :
    (setMessage e changed m).messageAt? field =
      if changed = field then some m else e.messageAt? field := by
  cases changed with
  | comment => exact absurd rfl h
  | translation i =>
      rw [setMessage, messageAt?_setTranslation]
      simp only [eq_comm]
  | _ => cases field <;> simp [setMessage, messageAt?]; rfl

theorem lineAt?_unescape : e.unescape.lineAt? field = e.lineAt? field := by
  rw [lineAt?, messageAt?_unescape, Option.map_map]
  rfl

theorem mark_withFlagsOf (e f : Entry) (m : FormatFlag) :
    (e.withFlagsOf f).mark m = e.withFlagsOf (f.mark m) := by
  have hformat : (e.withFlagsOf f).format = f.format := rfl
  unfold mark
  split
  · rfl
  · rw [hformat, apply_ite e.withFlagsOf]
    rfl
  · rw [hformat, apply_ite e.withFlagsOf]
    rfl
  · rfl

end Entry

namespace Reader

/-- Flags leave all else as it is, and take no account of it. -/
theorem applyFlag_withFlagsOf (e f : Entry) (flag : List Char) :
    applyFlag (e.withFlagsOf f) flag = e.withFlagsOf (applyFlag f flag) := by
  unfold applyFlag
  by_cases hfuzzy : flag = "fuzzy".toList
  · rw [if_pos hfuzzy, if_pos hfuzzy]
    rfl
  rw [if_neg hfuzzy, if_neg hfuzzy]
  by_cases hnoqa : flag = "noqa".toList
  · rw [if_pos hnoqa, if_pos hnoqa]
    rfl
  rw [if_neg hnoqa, if_neg hnoqa]
  cases Text.dropStart? "noqa:".toList flag with
  | some rules => rfl
  | none =>
      cases FormatFlag.ofText? flag with
      | some m => exact e.mark_withFlagsOf f m
      | none => rfl

theorem foldl_applyFlag_withFlagsOf (e f : Entry) (flags : List (List Char)) :
    flags.foldl applyFlag (e.withFlagsOf f) = e.withFlagsOf (flags.foldl applyFlag f) := by
  induction flags generalizing f with
  | nil => rfl
  | cons flag flags ih => rw [List.foldl_cons, List.foldl_cons, applyFlag_withFlagsOf, ih]

theorem applyFlags_withFlagsOf (e f : Entry) (line : List UInt8) :
    applyFlags (e.withFlagsOf f) line = e.withFlagsOf (applyFlags f line) :=
  foldl_applyFlag_withFlagsOf e f _

theorem applyFlags_eq (e : Entry) (line : List UInt8) :
    applyFlags e line = e.withFlagsOf (applyFlags e line) :=
  applyFlags_withFlagsOf e e line

/-- The message that the keyword of a line sets, also of an obsolete one. -/
def keywordOf? (line : List UInt8) : Option Field :=
  keyword? ((Text.dropStart? (ascii "#~ ") line).getD line)

theorem keyword?_eq_some {line : List UInt8} {field : Field} (h : keyword? line = some field) :
    ascii "msg" <+: line ∧ field ≠ .comment := by
  have hword {w : String} (h : (ascii w).isPrefixOf line) (hw : ascii "msg" <+: ascii w) :
      ascii "msg" <+: line :=
    hw.trans (List.isPrefixOf_iff_prefix.mp h)
  rw [keyword?] at h
  split at h
  · cases h
    exact ⟨hword ‹_› (by decide), nofun⟩
  · split at h
    · cases h
      exact ⟨hword ‹_› (by decide), nofun⟩
    · split at h
      · cases h
        exact ⟨hword ‹_› (by decide), nofun⟩
      · split at h
        · obtain ⟨⟨digits, _⟩, -, hi⟩ := Option.bind_eq_some_iff.mp h
          obtain ⟨i, -, rfl⟩ := Option.map_eq_some_iff.mp hi
          have hline := Text.dropStart?_eq_some ‹_›
          have hw : ascii "msg" <+: ascii "msgstr[" := by decide
          exact ⟨hw.trans ⟨_, hline.symm⟩, nofun⟩
        · split at h
          · cases h
            exact ⟨hword ‹_› (by decide), nofun⟩
          · cases h

theorem keyword?_eq_none {line : List UInt8} (h : line.head? ≠ some 109) :
    keyword? line = none := by
  cases hline : keyword? line with
  | none => rfl
  | some field =>
      obtain ⟨rest, rfl⟩ := (keyword?_eq_some hline).1
      exact absurd rfl h

/-- A line of flags has no keyword. -/
theorem keywordOf?_flags (flags : List UInt8) : keywordOf? (ascii "#," ++ flags) = none := by
  have hline : keyword? (35 :: 44 :: flags) = none := keyword?_eq_none (by simp)
  exact hline

/-- A line without the mark of an obsolete one. -/
def body (line : List UInt8) : List UInt8 :=
  (Text.dropStart? (ascii "#~ ") line).getD line

/-- The line has a string to continue a message with. -/
def Continues (line : List UInt8) : Prop :=
  (body line).head? = some 34
  deriving Decidable

theorem keywordOf?_of_continues {line : List UInt8} (h : Continues line) :
    keywordOf? line = none := by
  have hkeyword : (body line).head? ≠ some 109 := by
    rw [show (body line).head? = some 34 from h]
    decide
  exact keyword?_eq_none hkeyword

variable [Charsets]

/-- The string in a line. -/
def stringIn (set : Option Charset) (line : List UInt8) : List Char :=
  (decode set (quoted (body line))).1

variable (set : Option Charset) (d : Draft) (n : ℕ) (line : List UInt8) (field : Field)

/-- A line is read without the mark of an obsolete one, unless it is a comment or has flags. -/
theorem readLine_cases :
    (∃ obsolete, d.readLine set n line =
      Draft.readMessage set n { d with entry := { d.entry with obsolete } } (body line)) ∨
    (¬Continues line ∧ keywordOf? line = none ∧
      ∃ f, d.readLine set n line = { d with entry := d.entry.withFlagsOf f }) := by
  rw [Draft.readLine]
  split
  · rename_i flags hline
    refine .inr ⟨?_, ?_, _, by rw [applyFlags_eq]⟩
    · rw [Text.dropStart?_eq_some hline]
      exact nofun
    · rw [Text.dropStart?_eq_some hline, keywordOf?_flags]
  · split
    · rename_i rest hline
      exact .inl ⟨true, by rw [body, hline]; rfl⟩
    · rename_i hline
      have hbody : body line = line := by rw [body, hline]; rfl
      split
      · exact .inl ⟨d.entry.obsolete, by rw [hbody]⟩
      · rename_i hmessage
        have hkeyword : keywordOf? line = none := by
          rw [keywordOf?, ← body, hbody]
          by_contra hne
          obtain ⟨changed, hchanged⟩ := Option.ne_none_iff_exists'.mp hne
          exact hmessage (by simp [List.isPrefixOf_iff_prefix, (keyword?_eq_some hchanged).1])
        refine .inr ⟨?_, hkeyword, d.entry, rfl⟩
        rw [Continues, hbody]
        exact fun hquote => hmessage (by simp [hquote])

/-- A string to continue with is added to the message that was set last. -/
theorem messageAt?_readLine_of_continues (h : Continues line) :
    (d.readLine set n line).field = d.field ∧ (d.readLine set n line).entry.messageAt? field =
      if d.field = field then
        (d.entry.messageAt? field).map (·.append (.ofList (stringIn set line)))
      else d.entry.messageAt? field := by
  rcases readLine_cases set d n line with ⟨obsolete, hread⟩ | ⟨hnot, -⟩
  · rw [Continues] at h
    rw [hread, Draft.readMessage, if_pos h]
    refine ⟨rfl, (Entry.messageAt?_continueMessage ..).trans ?_⟩
    cases field <;> rfl
  · exact absurd h hnot

/-- Any other line changes only the message that its keyword sets. -/
theorem messageAt?_readLine (h : ¬Continues line) :
    (d.readLine set n line).field = (keywordOf? line).getD d.field ∧
      (d.readLine set n line).entry.messageAt? field =
        if keywordOf? line = some field then some ⟨n, .ofList (stringIn set line)⟩
        else d.entry.messageAt? field := by
  rcases readLine_cases set d n line with ⟨obsolete, hread⟩ | ⟨-, hkeyword, f, hread⟩
  · rw [Continues] at h
    rw [hread, Draft.readMessage, if_neg h, keywordOf?, ← body]
    cases hline : keyword? (body line) with
    | none =>
        refine ⟨rfl, ?_⟩
        cases field <;> rfl
    | some changed =>
        refine ⟨rfl, (Entry.messageAt?_setMessage _ _ (keyword?_eq_some hline).2 _).trans ?_⟩
        simp only [Option.some.injEq]
        split
        · rfl
        · cases field <;> rfl
  · rw [hread, hkeyword]
    refine ⟨rfl, ?_⟩
    cases field <;> rfl

/-- The keyword of a line sets the line of its message; all other lines stay. -/
theorem lineAt?_readLine :
    (d.readLine set n line).entry.lineAt? field =
      if keywordOf? line = some field then some n else d.entry.lineAt? field := by
  by_cases h : Continues line
  · rw [Entry.lineAt?, (messageAt?_readLine_of_continues set d n line field h).2,
      keywordOf?_of_continues h]
    split
    · rw [Option.map_map]
      rfl
    · rfl
  · rw [Entry.lineAt?, (messageAt?_readLine set d n line field h).2, apply_ite (Option.map _)]
    rfl

theorem line_readMessage : (d.readMessage set n line).entry.line = d.entry.line := by
  rw [Draft.readMessage]
  split
  · cases d with | mk e current => cases current <;> rfl
  · split
    · rfl
    · rename_i changed _
      cases changed <;> rfl

theorem line_readLine : (d.readLine set n line).entry.line = d.entry.line := by
  rw [Draft.readLine]
  split
  · rw [applyFlags_eq]
    rfl
  · split
    · rw [line_readMessage]
    · split
      · exact line_readMessage ..
      · rfl

/-- An entry starts at the first line of its run. -/
theorem line_entryOf (run : List (ℕ × List UInt8)) :
    (entryOf set run).line = (run.head?.map Prod.fst).getD 0 := by
  rw [entryOf]
  -- The induction takes lines off the end, so the first one is fixed before.
  generalize (run.head?.map Prod.fst).getD 0 = first
  change (run.foldl _ (Draft.start first)).entry.line = first
  induction run using List.reverseRecOn with
  | nil => rfl
  | append_singleton run line ih =>
      rw [List.foldl_append, List.foldl_cons, List.foldl_nil, line_readLine, ih]

/-- A message starts at the last line of the run that has its keyword. -/
theorem lineAt?_entryOf (run : List (ℕ × List UInt8)) :
    (entryOf set run).lineAt? field =
      (run.filter (keywordOf? ·.2 = some field)).getLast?.map Prod.fst := by
  rw [entryOf, Entry.lineAt?_unescape]
  generalize (run.head?.map Prod.fst).getD 0 = first
  induction run using List.reverseRecOn with
  | nil => exact congrArg (Option.map _) (Entry.messageAt?_atLine ..)
  | append_singleton run line ih =>
      rw [List.foldl_append, List.foldl_cons, List.foldl_nil, lineAt?_readLine, ih,
        List.filter_append]
      by_cases h : keywordOf? line.2 = some field
      · simp [h]
      · simp [h]

end Reader

end CatalogLint
