import Mathlib.Data.List.TakeWhile
import CatalogLint.Charset.Known
import CatalogLint.Proofs.Catalog.Stream

/-!
# Strings of a message

A message is made of the string in the line that sets it and of the strings that continue it, up to
the next line that sets a message (`Reader.messageAt?_entryOf`). A line with a keyword that is not
understood sets none, so the strings behind it continue the message before it; without such a
string, each one belongs to the nearest line with a keyword above it (`Catalog.stream_messages`).
-/
namespace CatalogLint

open Reader

namespace Message
variable (m : Message)

theorem append_empty : m.append "" = m :=
  congrArg (Message.mk m.line) (String.append_empty ..)

theorem append_append (s t : String) : (m.append s).append t = m.append (s ++ t) :=
  congrArg (Message.mk m.line) (String.append_assoc ..)

end Message

namespace Reader

/-- The line has a keyword, whether it is understood or not. -/
def Announces (line : List UInt8) : Prop :=
  ascii "msg" <+: body line
  deriving Decidable

/-- The line has a keyword that is understood. -/
def Opens (line : List UInt8) : Prop :=
  (keywordOf? line).isSome = true
  deriving Decidable

/-- The lines that continue a message, up to one that closes it. -/
def continuations (closes : List UInt8 → Prop) [DecidablePred closes]
    (after : List (ℕ × List UInt8)) : List (List UInt8) :=
  ((after.map Prod.snd).takeWhile (¬closes ·)).filter (Continues ·)

theorem Opens.announces {line : List UInt8} (h : Opens line) : Announces line := by
  obtain ⟨field, hfield⟩ := Option.isSome_iff_exists.mp h
  exact (keyword?_eq_some hfield).1

theorem Continues.not_opens {line : List UInt8} (h : Continues line) : ¬Opens line := by
  rw [Opens, keywordOf?_of_continues h]
  decide

section Continuations
variable {closes : List UInt8 → Prop} [DecidablePred closes] {l : ℕ × List UInt8}
  {after : List (ℕ × List UInt8)}

theorem continuations_cons_of_closes (h : closes l.2) : continuations closes (l :: after) = [] := by
  rw [continuations, List.map_cons, List.takeWhile_cons_of_neg (by simpa using h), List.filter_nil]

theorem continuations_cons_of_continues (h : ¬closes l.2) (hl : Continues l.2) :
    continuations closes (l :: after) = l.2 :: continuations closes after := by
  rw [continuations, List.map_cons, List.takeWhile_cons_of_pos (by simpa using h),
    List.filter_cons_of_pos (by simpa using hl)]
  rfl

theorem continuations_cons_of_not (h : ¬closes l.2) (hl : ¬Continues l.2) :
    continuations closes (l :: after) = continuations closes after := by
  rw [continuations, List.map_cons, List.takeWhile_cons_of_pos (by simpa using h),
    List.filter_cons_of_neg (by simpa using hl)]
  rfl

end Continuations

/-- The line is the last one of the run that sets the message, and these lines stand behind it. -/
structure Sets (run : List (ℕ × List UInt8)) (field : Field) (n : ℕ) (line : List UInt8)
    (after : List (ℕ × List UInt8)) : Prop where
  suffix : (n, line) :: after <:+ run
  sets : keywordOf? line = some field
  last : ∀ l ∈ after, keywordOf? l.2 ≠ some field

instance (run : List (ℕ × List UInt8)) (field : Field) (n : ℕ) (line : List UInt8)
    (after : List (ℕ × List UInt8)) : Decidable (Sets run field n line after) :=
  decidable_of_iff ((n, line) :: after <:+ run ∧ keywordOf? line = some field ∧
      ∀ l ∈ after, keywordOf? l.2 ≠ some field)
    ⟨fun h => ⟨h.1, h.2.1, h.2.2⟩, fun h => ⟨h.suffix, h.sets, h.last⟩⟩

theorem exists_sets {run : List (ℕ × List UInt8)} {field : Field}
    (h : ∃ l ∈ run, keywordOf? l.2 = some field) : ∃ n line after, Sets run field n line after := by
  induction run with
  | nil => simp at h
  | cons l run ih =>
      by_cases hrun : ∃ l ∈ run, keywordOf? l.2 = some field
      · obtain ⟨n, line, after, hsuffix, hsets, hlast⟩ := ih hrun
        exact ⟨n, line, after, hsuffix.trans (List.suffix_cons l run), hsets, hlast⟩
      · obtain ⟨l', hl', hsets⟩ := h
        obtain rfl | hl' := List.mem_cons.mp hl'
        · exact ⟨l'.1, l'.2, run, List.suffix_refl _, hsets, fun l hl h => hrun ⟨l, hl, h⟩⟩
        · exact absurd ⟨l', hl', hsets⟩ hrun

/-- Before the next line that sets a message, a string stands behind a keyword that is not
understood. -/
def Astray (after : List (ℕ × List UInt8)) : Prop :=
  ∃ line ∈ ((after.map Prod.snd).takeWhile (¬Opens ·)).dropWhile (¬Announces ·), Continues line

/-- Strings that go astray are the only ones that continue a message across a keyword. -/
theorem continuations_eq_iff (after : List (ℕ × List UInt8)) :
    continuations Opens after = continuations Announces after ↔ ¬Astray after := by
  have hclosed (lines : List (List UInt8)) : lines.takeWhile (¬Announces ·) =
      (lines.takeWhile (¬Opens ·)).takeWhile (¬Announces ·) := by
    rw [List.takeWhile_takeWhile]
    congr 1
    funext l
    simpa using mt Opens.announces
  rw [Astray, continuations, continuations, hclosed]
  generalize (after.map Prod.snd).takeWhile (¬Opens ·) = lines
  nth_rewrite 1 [← List.takeWhile_append_dropWhile (p := (¬Announces ·)) (l := lines)]
  rw [List.filter_append, List.append_right_eq_self, List.filter_eq_nil_iff]
  simp

variable [Charsets]

/-- The text of a message that these lines spell. -/
def textOf (set : Option Charset) (lines : List (List UInt8)) : String :=
  Escape.unescape (.ofList (lines.flatMap (stringIn set)))

variable (set : Option Charset) {field : Field} {after : List (ℕ × List UInt8)} {d : Draft}

/-- A message stays as it is as long as it is neither set nor continued. -/
theorem messageAt?_readLines_of_ne (hafter : ∀ l ∈ after, keywordOf? l.2 ≠ some field)
    (hfield : d.field ≠ field) :
    (Stream.readLines set d after).entry.messageAt? field = d.entry.messageAt? field := by
  induction after generalizing d with
  | nil => rfl
  | cons l after ih =>
      obtain ⟨hl, hafter⟩ := List.forall_mem_cons.mp hafter
      by_cases hcontinues : Continues l.2
      · obtain ⟨hcurrent, hmessage⟩ :=
          messageAt?_readLine_of_continues set d l.1 l.2 field hcontinues
        rw [if_neg hfield] at hmessage
        exact (ih hafter (by rwa [hcurrent])).trans hmessage
      · obtain ⟨hcurrent, hmessage⟩ := messageAt?_readLine set d l.1 l.2 field hcontinues
        rw [if_neg hl] at hmessage
        refine (ih hafter ?_).trans hmessage
        rw [hcurrent]
        cases hkeyword : keywordOf? l.2 with
        | none => exact hfield
        | some changed => exact fun h => hl (by rw [hkeyword, ← h]; rfl)

/-- The message that was set last takes the strings up to the next line that sets one. -/
theorem messageAt?_readLines_of_eq (hafter : ∀ l ∈ after, keywordOf? l.2 ≠ some field)
    (hfield : d.field = field) : (Stream.readLines set d after).entry.messageAt? field =
      (d.entry.messageAt? field).map
        (·.append (.ofList ((continuations Opens after).flatMap (stringIn set)))) := by
  induction after generalizing d with
  | nil => simp [Stream.readLines, continuations, Message.append_empty]
  | cons l after ih =>
      obtain ⟨hl, hafter⟩ := List.forall_mem_cons.mp hafter
      by_cases hcontinues : Continues l.2
      · obtain ⟨hcurrent, hmessage⟩ :=
          messageAt?_readLine_of_continues set d l.1 l.2 field hcontinues
        rw [if_pos hfield] at hmessage
        refine (ih hafter (hcurrent.trans hfield)).trans ?_
        rw [hmessage, Option.map_map,
          continuations_cons_of_continues hcontinues.not_opens hcontinues, List.flatMap_cons,
          String.ofList_append]
        simp only [Function.comp_def, Message.append_append]
      · obtain ⟨hcurrent, hmessage⟩ := messageAt?_readLine set d l.1 l.2 field hcontinues
        rw [if_neg hl] at hmessage
        by_cases hopens : Opens l.2
        · obtain ⟨changed, hchanged⟩ := Option.isSome_iff_exists.mp hopens
          rw [hchanged] at hl hcurrent
          have hrest := messageAt?_readLines_of_ne set hafter
            (d := d.readLine set l.1 l.2) (by rw [hcurrent]; exact fun h => hl (congrArg some h))
          refine (hrest.trans hmessage).trans ?_
          rw [continuations_cons_of_closes hopens]
          simp [Message.append_empty]
        · rw [Opens, Option.not_isSome_iff_eq_none] at hopens
          rw [hopens] at hcurrent
          refine (ih hafter (hcurrent.trans hfield)).trans ?_
          rw [hmessage, continuations_cons_of_not (by rw [Opens, hopens]; decide) hcontinues]

variable {run : List (ℕ × List UInt8)} {n : ℕ} {line : List UInt8}

theorem entryOf_eq (run : List (ℕ × List UInt8)) : entryOf set run =
    (Stream.readLines set (.start ((run.head?.map Prod.fst).getD 0)) run).entry.unescape :=
  rfl

/-- A message that no line sets is missing. -/
theorem messageAt?_entryOf_eq_none (h : ∀ l ∈ run, keywordOf? l.2 ≠ some field) :
    (entryOf set run).messageAt? field = none := by
  rw [entryOf_eq, Entry.messageAt?_unescape]
  by_cases hfield : field = .comment
  · rw [hfield]
    rfl
  · rw [messageAt?_readLines_of_ne set h (Ne.symm hfield)]
    exact congrArg (Option.map _) (Entry.messageAt?_atLine field _)

/-- A message is spelled by the last line that sets it and by those that continue it. -/
theorem messageAt?_entryOf (h : Sets run field n line after) :
    (entryOf set run).messageAt? field =
      some ⟨n, textOf set (line :: continuations Opens after)⟩ := by
  obtain ⟨⟨before, rfl⟩, hline, hafter⟩ := h
  rw [entryOf_eq, Entry.messageAt?_unescape, Stream.readLines, List.foldl_append,
    List.foldl_cons]
  generalize List.foldl _ _ before = d
  have hcontinues : ¬Continues line := fun h => by
    rw [keywordOf?_of_continues h] at hline
    cases hline
  obtain ⟨hcurrent, hmessage⟩ := messageAt?_readLine set d n line field hcontinues
  rw [if_pos hline] at hmessage
  have hrest := messageAt?_readLines_of_eq set hafter (d := d.readLine set n line)
    (by rw [hcurrent, hline]; rfl)
  rw [hmessage] at hrest
  refine (congrArg (Option.map Message.unescape) hrest).trans ?_
  rw [textOf, List.flatMap_cons, String.ofList_append]
  rfl

/-- How the messages of an entry come from the lines of its run. A message is spelled by the last
line that sets it and by the strings behind it. As long as no string stands behind a keyword that
is not understood, they are the strings for which that line is the nearest one with a keyword. -/
structure MadeOf (set : Option Charset) (e : Entry) (run : List (ℕ × List UInt8)) : Prop where
  missing (field : Field) : (∀ l ∈ run, keywordOf? l.2 ≠ some field) → e.messageAt? field = none
  spelled {field : Field} {n : ℕ} {line : List UInt8} {after : List (ℕ × List UInt8)} :
    Sets run field n line after →
      e.messageAt? field = some ⟨n, textOf set (line :: continuations Opens after)⟩ ∧
      (¬Astray after →
        e.messageAt? field = some ⟨n, textOf set (line :: continuations Announces after)⟩)

theorem madeOf_entryOf (run : List (ℕ × List UInt8)) : MadeOf set (entryOf set run) run where
  missing _ := messageAt?_entryOf_eq_none set
  spelled {_ _ _ after} h := by
    have hmessage := messageAt?_entryOf set h
    refine ⟨hmessage, fun hastray => ?_⟩
    rw [← (continuations_eq_iff after).mpr hastray]
    exact hmessage

end Reader

namespace Catalog

section
variable [Charsets] (data : List UInt8)

/-- The character set in which an entry is read: the one that the headers before it name. -/
def charsetAt (i : ℕ) : Option Charset :=
  (((stream data).entries.take i).filter Entry.isHeader).foldl charsetAfter none

theorem getElem?_stream (i : ℕ) :
    (stream data).entries[i]? = (maximalRuns data)[i]?.map (entryOf (charsetAt data i)) := by
  rw [charsetAt, foldl_charsetAfter, entries_stream]
  exact getElem?_entries none (maximalRuns data) i

/-- The messages of every entry are made of the lines of its run. -/
theorem stream_messages (i : ℕ) (run : List (ℕ × List UInt8))
    (hrun : (maximalRuns data)[i]? = some run) :
    ∃ e, (stream data).entries[i]? = some e ∧ MadeOf (charsetAt data i) e run := by
  refine ⟨entryOf (charsetAt data i) run, ?_, madeOf_entryOf _ run⟩
  rw [getElem?_stream, hrun]
  rfl

end

/-- A comment does not end a message, and a keyword that is not understood changes nothing. -/
theorem stream_messages_comment :
    let data := "msgid \"a\"\nmsgstr \"b\"\n# c\n\"d\"\nmsgstr[x] \"e\"\n".toUTF8.toList
    let run := numbered data
    let line := ascii "msgstr \"b\""
    let after := [(3, ascii "# c"), (4, ascii "\"d\""), (5, ascii "msgstr[x] \"e\"")]
    (maximalRuns data)[0]? = some run ∧ Sets run (.translation 0) 2 line after ∧
      ∃ e, (stream data).entries[0]? = some e ∧ MadeOf (charsetAt data 0) e run ∧
        e.messageAt? (.translation 0) = some ⟨2, "bd"⟩ := by
  intro data run line after
  have hrun : (maximalRuns data)[0]? = some run := by decide +kernel
  have hsets : Sets run (.translation 0) 2 line after := by decide +kernel
  obtain ⟨e, he, hmade⟩ := stream_messages data 0 run hrun
  refine ⟨hrun, hsets, e, he, hmade, ?_⟩
  have htext : textOf none (line :: continuations Opens after) = "bd" := by decide +kernel
  have hset : charsetAt data 0 = none := rfl
  rw [(hmade.spelled hsets).1, hset, htext]

/-- A string behind a keyword that is not understood is added to the message above it. -/
theorem not_messages_nearest :
    let data := "msgid \"a\"\nmsgstr \"b\"\nmsgstr[x] \"c\"\n\"d\"\n".toUTF8.toList
    let line := ascii "msgstr \"b\""
    let after := [(3, ascii "msgstr[x] \"c\""), (4, ascii "\"d\"")]
    (maximalRuns data)[0]? = some (numbered data) ∧
      Sets (numbered data) (.translation 0) 2 line after ∧
      textOf none (line :: continuations Announces after) = "b" ∧
      (stream data).entries.map (·.messageAt? (.translation 0)) = [some ⟨2, "bd"⟩] := by
  intro data line after
  rw [stream_eq_read]
  decide +kernel

end Catalog

end CatalogLint
