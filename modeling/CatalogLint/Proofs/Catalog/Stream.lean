import CatalogLint.Catalog.Stream
import CatalogLint.Proofs.Catalog.Keyword
import CatalogLint.Proofs.Catalog.Runs

/-!
# Streams yield the entries of the runs

A call for the next entry reads the next run of the lines that are still to come, and leaves the
lines behind it (`Stream.serves_next`). So a stream yields what is read from the runs, one by one
(`Catalog.stream_entries`).
-/
namespace CatalogLint

open Reader

namespace Stream
variable {s s' : Stream} {line : List UInt8}

/-- The lines that are still to come, with their numbers. -/
def remaining (s : Stream) : List (ℕ × List UInt8) :=
  numberedFrom s.nextLine (Text.byteLines (s.data.drop s.offset))

/-- An entry in progress, with what the stream keeps about it. -/
def draft (s : Stream) (e : Entry) : Draft :=
  ⟨{ e with damaged := s.damaged }, s.field⟩

theorem remaining_of_none (h : s.nextLine? = none) : s.remaining = [] := by
  rw [nextLine?] at h
  split at h
  · rw [remaining, List.drop_eq_nil_of_le ‹_›]
    rfl
  · cases h

theorem remaining_of_some (h : s.nextLine? = some (line, s')) :
    s.remaining = (s.nextLine, line) :: s'.remaining := by
  rw [nextLine?] at h
  split at h
  · cases h
  · cases h
    have hne : s.data.drop s.offset ≠ [] := by simpa using Nat.lt_of_not_le ‹_›
    rw [remaining, Text.byteLines_of_ne_nil hne, List.drop_drop]
    rfl

theorem exists_of_nextLine? (h : s.nextLine? = some (line, s')) :
    ∃ offset, s' = { s with offset, nextLine := s.nextLine + 1 } := by
  rw [nextLine?] at h
  split at h
  · cases h
  · cases h
    exact ⟨_, rfl⟩

theorem draft_applyFlags (s : Stream) (e : Entry) (flags : List UInt8) :
    s.draft (applyFlags e flags) = ⟨applyFlags (s.draft e).entry flags, s.field⟩ := by
  have hflags : applyFlags (s.draft e).entry flags = (s.draft e).entry.withFlagsOf _ :=
    applyFlags_withFlagsOf (s.draft e).entry e flags
  rw [applyFlags_eq e, hflags]
  rfl

variable [Charsets]

/-- Reading a line into an entry in progress is the step of a draft. -/
theorem draft_readMessage (s : Stream) (e : Entry) (line : List UInt8) :
    (s.readMessage e line).2.draft (s.readMessage e line).1 =
      (s.draft e).readMessage s.charset s.line line := by
  rw [readMessage, Draft.readMessage]
  by_cases hquote : line.head? = some 34
  · simp only [if_pos hquote]
    obtain ⟨_, _, _, _, _, field, _⟩ := s
    cases field <;> rfl
  · simp only [if_neg hquote]
    cases keyword? line with
    | none => rfl
    | some field => cases field <;> rfl

theorem draft_readLine (s : Stream) (e : Entry) (line : List UInt8) :
    (s.readLine e line).2.draft (s.readLine e line).1 =
      (s.draft e).readLine s.charset s.line line := by
  rw [readLine, Draft.readLine]
  cases Text.dropStart? (ascii "#,") line with
  | some flags => exact s.draft_applyFlags e flags
  | none =>
      cases Text.dropStart? (ascii "#~ ") line with
      | some rest => exact s.draft_readMessage { e with obsolete := true } rest
      | none =>
          dsimp only
          split
          · exact s.draft_readMessage e line
          · rfl

/-- Lines read into a draft. -/
def readLines (set : Option Charset) (d : Draft) (lines : List (ℕ × List UInt8)) : Draft :=
  lines.foldl (fun d line => d.readLine set line.1 line.2) d

/-- A call that has yielded an entry, and left the runs behind it. -/
structure Yields (set : Option Charset) (e : Entry) (more : List (List (ℕ × List UInt8)))
    (r : Option Entry × Stream) : Prop where
  entry : r.1 = some e
  charset : r.2.charset = charsetAfter set e
  runs : runs r.2.remaining = more

theorem yields_finish (s : Stream) (e : Entry) :
    Yields s.charset (s.draft e).entry.unescape (runs s.remaining) (s.finish e) :=
  ⟨rfl, rfl, rfl⟩

/-- An entry of which lines have been read takes the lines before the next empty one. -/
theorem yields_readEntry (e : Entry) (hline : s.line = s.nextLine) :
    Yields s.charset
      (readLines s.charset (s.draft e) (s.remaining.takeWhile (!·.2.isEmpty))).entry.unescape
      (runs (s.remaining.dropWhile (!·.2.isEmpty))) (s.readEntry e true) := by
  generalize hstarted : true = started
  -- The stream numbers a line right as long as both its counters agree before the line is taken.
  fun_induction readEntry s e started with
  | case1 s e h =>
      have hyields := s.yields_finish e
      rw [remaining_of_none h] at hyields ⊢
      exact hyields
  | case2 s e started h hnot => exact absurd hstarted.symm hnot
  | case3 s e line s' h hempty =>
      obtain ⟨offset, rfl⟩ := exists_of_nextLine? h
      rw [remaining_of_some h, List.takeWhile_cons_of_neg (by simpa using hempty),
        List.dropWhile_cons_of_neg (by simpa using hempty), runs_of_isEmpty _ hempty]
      exact yields_finish { s with offset, nextLine := s.nextLine + 1 } e
  | case4 s e started line s' h hempty hnot => exact absurd hstarted.symm hnot
  | case5 s e started line s' h hempty read ih =>
      obtain ⟨offset, hs'⟩ := exists_of_nextLine? h
      have hdraft : read.2.draft read.1 = (s.draft e).readLine s.charset s.nextLine line := by
        rw [s'.draft_readLine, hs', ← hline]
        rfl
      obtain ⟨field, damaged, hread⟩ := s'.exists_readLine e line
      have hcharset : read.2.charset = s.charset := by rw [hread, hs']
      have hremaining : read.2.remaining = s'.remaining := by
        rw [hread]
        rfl
      have hyields : Yields read.2.charset (readLines read.2.charset (read.2.draft read.1)
          (read.2.remaining.takeWhile (!·.2.isEmpty))).entry.unescape
          (runs (read.2.remaining.dropWhile (!·.2.isEmpty))) _ := ih rfl rfl
      rw [hcharset, hremaining, hdraft] at hyields
      rw [remaining_of_some h, List.takeWhile_cons_of_pos (by simpa using hempty),
        List.dropWhile_cons_of_pos (by simpa using hempty)]
      exact hyields

/-- Once a line has been found, it makes no difference whether one was read before. -/
theorem readEntry_of_line (e : Entry) (h : s.nextLine? = some (line, s')) (hline : ¬line.isEmpty)
    (started : Bool) : s.readEntry e started =
      readEntry { (s'.readLine e line).2 with line := (s'.readLine e line).2.nextLine }
        (s'.readLine e line).1 true := by
  rw [readEntry]
  split
  · rename_i h'
    cases h.symm.trans h'
  · rename_i h'
    cases h.symm.trans h'
    rw [if_neg hline]

/-- What a call does when these runs are still to come: it yields the entry of the first one. -/
def Serves (set : Option Charset) (r : Option Entry × Stream) :
    List (List (ℕ × List UInt8)) → Prop
  | [] => r.1 = none ∧ r.2.charset = set
  | run :: more => Yields set (entryOf set run) more r

theorem serves_readEntry (hline : s.line = s.nextLine) (hfield : s.field = .comment)
    (hdamaged : s.damaged = false) :
    Serves s.charset (s.readEntry (.atLine s.line) false) (runs s.remaining) := by
  generalize he : Entry.atLine s.line = e
  -- Empty lines move the entry on with the counters, so it starts at the line that is looked for.
  generalize hstarted : false = started
  fun_induction readEntry s e started with
  | case1 s e h => cases hstarted
  | case2 s e started h hnot =>
      rw [remaining_of_none h]
      exact ⟨rfl, rfl⟩
  | case3 s e line s' h hempty => cases hstarted
  | case4 s e started line s' h hempty hnot ih =>
      obtain ⟨offset, rfl⟩ := exists_of_nextLine? h
      rw [remaining_of_some h, runs_of_isEmpty _ hempty]
      subst he
      exact ih rfl hfield hdamaged rfl rfl
  | case5 s e started line s' h hempty read ih =>
      subst he
      have hyields := yields_readEntry (.atLine s.line) hline
      rw [readEntry_of_line _ h hempty, remaining_of_some h,
        List.takeWhile_cons_of_pos (by simpa using hempty),
        List.dropWhile_cons_of_pos (by simpa using hempty)] at hyields
      have hdraft : s.draft (.atLine s.line) = .start s.nextLine := by
        rw [draft, hfield, hdamaged, hline]
        rfl
      rw [hdraft] at hyields
      rw [remaining_of_some h, runs_of_not_isEmpty _ hempty]
      exact hyields

theorem serves_next (s : Stream) : Serves s.charset s.next (runs s.remaining) :=
  serves_readEntry (s := { s with line := s.nextLine, field := .comment, damaged := false })
    rfl rfl rfl

/-- A stream yields the entries of the runs that are still to come. -/
theorem entries_eq (s : Stream) :
    (s.entries.1, s.entries.2.charset) = Reader.entries s.charset (runs s.remaining) := by
  fun_induction entries s with
  | case1 s s' h =>
      have hserves := s.serves_next
      rw [h] at hserves
      cases hruns : runs s.remaining with
      | nil =>
          rw [hruns] at hserves
          exact congrArg ([], ·) hserves.2
      | cons run more =>
          rw [hruns] at hserves
          cases hserves.entry
  | case2 s e s' h rest ih =>
      have hserves := s.serves_next
      rw [h] at hserves
      cases hruns : runs s.remaining with
      | nil =>
          rw [hruns] at hserves
          cases hserves.1
      | cons run more =>
          rw [hruns] at hserves
          obtain ⟨hentry, hcharset, hmore⟩ := hserves
          cases hentry
          rw [Reader.entries, ← hcharset, ← hmore, ← ih]

end Stream

namespace Reader
variable [Charsets] (set : Option Charset) (rs : List (List (ℕ × List UInt8)))

/-- Only headers name character sets. -/
theorem foldl_charsetAfter (es : List Entry) :
    (es.filter Entry.isHeader).foldl charsetAfter set = es.foldl charsetAfter set := by
  rw [List.foldl_filter]
  congr 1
  funext set e
  rw [charsetAfter]
  split <;> rfl

/-- The character set of an entry is the one after those before it. -/
theorem getElem?_entries (i : ℕ) :
    (entries set rs).1[i]? =
      rs[i]?.map (entryOf (((entries set rs).1.take i).foldl charsetAfter set)) := by
  induction rs generalizing set i with
  | nil => rfl
  | cons run more ih =>
      cases i with
      | zero => rfl
      | succ i => exact ih (charsetAfter set (entryOf set run)) i

/-- Where an entry and its messages start. -/
structure StartsIn (e : Entry) (run : List (ℕ × List UInt8)) : Prop where
  line : run.head?.map Prod.fst = some e.line
  lineAt (field : Field) :
    e.lineAt? field = (run.filter (keywordOf? ·.2 = some field)).getLast?.map Prod.fst

theorem startsIn_entryOf {run : List (ℕ × List UInt8)} (h : run ≠ []) :
    StartsIn (entryOf set run) run where
  line := by
    rw [line_entryOf]
    cases run with
    | nil => exact absurd rfl h
    | cons => rfl
  lineAt field := lineAt?_entryOf set field run

theorem forall₂_entries (h : ∀ run ∈ rs, run ≠ []) :
    List.Forall₂ StartsIn (entries set rs).1 rs := by
  induction rs generalizing set with
  | nil => exact .nil
  | cons run more ih =>
      obtain ⟨hrun, hmore⟩ := List.forall_mem_cons.mp h
      exact .cons (startsIn_entryOf set hrun) (ih _ hmore)

end Reader

namespace Catalog
variable [Charsets] (data : List UInt8)

/-- A stream reads the same catalog as a reader of all runs. -/
theorem stream_eq_read : stream data = read data := by
  have h := (Stream.ofBytes data).entries_eq
  have hremaining : (Stream.ofBytes data).remaining = numbered data := (numbered_eq data).symm
  have hcharset : (Stream.ofBytes data).charset = none := rfl
  rw [hremaining, hcharset] at h
  rw [stream, read, ← h]

theorem entries_stream :
    (stream data).entries = (Reader.entries none (maximalRuns data)).1 := by
  rw [stream_eq_read, read, runs_numbered]

/-- The entries that a stream yields and the maximal runs of lines that are not empty correspond to
each other. An entry is made of its run and of the character set that headers before it have named,
of nothing else. It starts at the first line of the run, and each of its messages at the last line
of the run that has the keyword of the message. -/
theorem stream_entries :
    stream data = read data ∧
    (∀ i : ℕ, (stream data).entries[i]? = (maximalRuns data)[i]?.map
      (entryOf ((((stream data).entries.take i).filter Entry.isHeader).foldl charsetAfter none))) ∧
    List.Forall₂ StartsIn (stream data).entries (maximalRuns data) := by
  refine ⟨stream_eq_read data, fun i => ?_, ?_⟩
  · rw [foldl_charsetAfter, entries_stream]
    exact getElem?_entries none (maximalRuns data) i
  · rw [entries_stream]
    refine forall₂_entries none _ fun run hrun => ?_
    simpa using (List.mem_filter.mp hrun).2

end Catalog

end CatalogLint
