import CatalogLint.ArgList.Text
import CatalogLint.Proofs.ArgList.Canonical
import CatalogLint.Proofs.Format.Reading
import CatalogLint.Proofs.Text.Split

/-!
# Argument lists read back

What is written of a list in normal form is written of no other one (`ArgList.text_faithful`). Of
two texts that begin with a list, the lists are told apart wherever they end
(`ArgList.toldApart_of_normal`), by induction on the element lists: the letters of a shape end at
a delimiter, its element list ends where the induction says, and a word for several arguments ends
with their number. The words say the cells of a segment, and merged runs are determined by these.
-/
namespace CatalogLint

/-! ### Letters -/

theorem Category.letter_inj {c d : Category} : c.letter = d.letter ↔ c = d := by
  cases c <;> cases d <;> decide

theorem Category.exists_index {i : ℕ} (h : i < 9) : ∃ c : Category, c.index = i := by
  have hall : ∀ i < 9, i ∈ Category.all.map Category.index := by decide
  obtain ⟨c, -, hc⟩ := List.mem_map.mp (hall i h)
  exact ⟨c, hc⟩

namespace Kinds
variable {k l : Kinds}

theorem ext_mem (h : ∀ c : Category, c ∈ k ↔ c ∈ l) : k = l := by
  have hbits : k.bits = l.bits := by
    apply BitVec.eq_of_getLsbD_eq
    intro i hi
    obtain ⟨c, rfl⟩ := Category.exists_index hi
    exact Bool.eq_iff_iff.mpr (h c)
  cases k
  cases l
  exact congrArg Kinds.mk hbits

theorem exists_of_mem_letters {x : Char} (h : x ∈ k.letters) : ∃ c ∈ k, c.letter = x := by
  obtain ⟨c, hc, rfl⟩ := List.mem_map.mp h
  exact ⟨c, (List.mem_filter.mp hc).2, rfl⟩

theorem letter_mem_letters {c : Category} : c.letter ∈ k.letters ↔ c ∈ k := by
  constructor
  · intro h
    obtain ⟨d, hd, heq⟩ := exists_of_mem_letters h
    rwa [← Category.letter_inj.mp heq]
  · intro h
    exact List.mem_map_of_mem (List.mem_filter.mpr ⟨Category.mem_all c, h⟩)

theorem letters_inj (h : k.letters = l.letters) : k = l :=
  ext_mem fun c => by rw [← letter_mem_letters, h, letter_mem_letters]

theorem letters_ne {x : Char} (h : x ∉ Category.all.map Category.letter) : k.letters ≠ [x] := by
  intro heq
  obtain ⟨c, -, rfl⟩ := exists_of_mem_letters (heq ▸ List.mem_singleton_self x)
  exact h (List.mem_map_of_mem (Category.mem_all c))

theorem letters_ne_nil (h : k.isEmpty = false) : k.letters ≠ [] := by
  intro hnil
  have hk : k = ⟨0⟩ := ext_mem fun c => by
    rw [← letter_mem_letters, hnil]
    cases c <;> decide
  rw [hk] at h
  cases h

end Kinds

/-! ### Words -/

/-- The characters that end the letters of a shape. -/
def isDelimiter (x : Char) : Bool :=
  ['(', ')', ' ', '|', '.', '×'].contains x

namespace Shape
variable {s t : Shape} {x : Char}

/-- What is written of a shape before its element list. -/
def head : Shape → List Char
  | .plain k => if k = .any then ['*'] else k.letters
  | .compound k _ _ => if k = .sequences then ['1'] else if k = .tables then ['2'] else k.letters

theorem write_plain (k : Kinds) : (plain k).write = (plain k).head := by
  rw [write, head]

theorem write_compound (k : Kinds) (i r : List Run) :
    (compound k i r).write = (compound k i r).head ++ ArgList.write ⟨i, r⟩ := by
  rw [write, head, ArgList.write, ← List.append_assoc, ← List.append_assoc]
  rfl

theorem isDelimiter_of_mem_head (h : x ∈ s.head) : isDelimiter x = false := by
  have hletter : ∀ k : Kinds, x ∈ k.letters → isDelimiter x = false := by
    intro k hx
    obtain ⟨c, -, rfl⟩ := Kinds.exists_of_mem_letters hx
    cases c <;> decide
  cases s with
  | plain k =>
      rw [head] at h
      split_ifs at h
      · cases List.mem_singleton.mp h
        decide
      · exact hletter k h
  | compound k i r =>
      rw [head] at h
      split_ifs at h
      · cases List.mem_singleton.mp h
        decide
      · cases List.mem_singleton.mp h
        decide
      · exact hletter k h

theorem kinds_eq_of_head (h : s.head = t.head) (hc : s.isCompound = t.isCompound) :
    s.kinds = t.kinds := by
  cases s with
  | plain k =>
      cases t with
      | compound => cases hc
      | plain l =>
          rw [head, head] at h
          split_ifs at h with hk hl hl
          · exact hk.trans hl.symm
          · exact absurd h.symm (Kinds.letters_ne (by decide))
          · exact absurd h (Kinds.letters_ne (by decide))
          · exact Kinds.letters_inj h
  | compound k =>
      cases t with
      | plain => cases hc
      | compound l =>
          rw [head, head] at h
          split_ifs at h with hk hl hl' hk' hl hl' hl hl'
          · exact hk.trans hl.symm
          · cases h
          · exact absurd h.symm (Kinds.letters_ne (by decide))
          · cases h
          · exact hk'.trans hl'.symm
          · exact absurd h.symm (Kinds.letters_ne (by decide))
          · exact absurd h (Kinds.letters_ne (by decide))
          · exact absurd h (Kinds.letters_ne (by decide))
          · exact Kinds.letters_inj h

end Shape

namespace ArgList

/-- Texts that begin with these lists tell them apart, whatever stands behind them. -/
def ToldApart (l m : ArgList) : Prop :=
  ∀ u v, l.write ++ u = m.write ++ v → l = m ∧ u = v

end ArgList

/-- Texts that begin with the element lists tell them apart. -/
def Shape.ElementsToldApart (s t : Shape) : Prop :=
  ∀ l m, s.elements? = some l → t.elements? = some m → l.ToldApart m

variable {u v : List Char}

/-- A shape can end before this text. -/
def AfterShape (u : List Char) : Prop :=
  ∀ x ∈ u.head?, x = ' ' ∨ x = ')' ∨ x = '×'

/-- A word can end before this text. -/
def AfterWord (u : List Char) : Prop :=
  ∀ x ∈ u.head?, x = ' ' ∨ x = ')'

/-- The words of a segment can end before this text. -/
inductive AfterWords : List Char → Prop
  | close (u : List Char) : AfterWords (')' :: u)
  | bar (u : List Char) : AfterWords (' ' :: '|' :: u)

theorem AfterWords.afterWord (h : AfterWords u) : AfterWord u := by
  intro x hx
  cases h with
  | close u => exact .inr (Option.some.inj hx).symm
  | bar u => exact .inl (Option.some.inj hx).symm

theorem AfterShape.isDelimiter (h : AfterShape u) : ∀ x ∈ u.head?, isDelimiter x = true := by
  intro x hx
  rcases h x hx with rfl | rfl | rfl <;> decide

theorem ArgList.exists_write (l : ArgList) : ∃ w, l.write = '(' :: w :=
  ⟨_, by rw [write, List.append_assoc, List.cons_append]⟩

theorem ArgList.isDelimiter_of_head? {l : ArgList} {x : Char} (h : x ∈ (l.write ++ u).head?) :
    isDelimiter x = true := by
  obtain ⟨w, hw⟩ := l.exists_write
  rw [hw] at h
  cases Option.some.inj h
  decide

theorem AfterShape.ne_write (h : AfterShape u) (l : ArgList) : u ≠ l.write ++ v := by
  intro heq
  obtain ⟨w, hw⟩ := l.exists_write
  have := h '(' (by rw [heq, hw]; rfl)
  revert this
  decide

namespace Shape
variable {s t : Shape}

theorem head_append_inj {w w' : List Char} (hw : ∀ x ∈ w.head?, isDelimiter x = true)
    (hw' : ∀ x ∈ w'.head?, isDelimiter x = true) (h : s.head ++ w = t.head ++ w') :
    s.head = t.head ∧ w = w' := by
  have hhead : ∀ (s : Shape), ∀ x ∈ s.head, (!isDelimiter x) = true := by
    intro s x hx
    rw [isDelimiter_of_mem_head hx]
    rfl
  have htail : ∀ w : List Char, (∀ x ∈ w.head?, isDelimiter x = true) →
      ∀ x ∈ w.head?, (!isDelimiter x) = false := by
    intro w hw x hx
    rw [hw x hx]
    rfl
  exact append_inj_of_head? (hhead s) (htail w hw) (hhead t) (htail w' hw') h

/-- Texts that begin with two shapes tell them apart if they tell the element lists apart. -/
theorem write_append_inj (helements : s.ElementsToldApart t) (hu : AfterShape u)
    (hv : AfterShape v) (h : s.write ++ u = t.write ++ v) : s = t ∧ u = v := by
  cases s with
  | plain k =>
      rw [write_plain] at h
      cases t with
      | plain l =>
          rw [write_plain] at h
          obtain ⟨hhead, huv⟩ := head_append_inj hu.isDelimiter hv.isDelimiter h
          exact ⟨congrArg plain (kinds_eq_of_head hhead rfl), huv⟩
      | compound l j r =>
          rw [write_compound, List.append_assoc] at h
          obtain ⟨-, huv⟩ := head_append_inj hu.isDelimiter
            (fun _ => ArgList.isDelimiter_of_head?) h
          exact absurd huv (hu.ne_write _)
  | compound k i r =>
      rw [write_compound, List.append_assoc] at h
      cases t with
      | plain l =>
          rw [write_plain] at h
          obtain ⟨-, huv⟩ := head_append_inj (fun _ => ArgList.isDelimiter_of_head?)
            hv.isDelimiter h
          exact absurd huv.symm (hv.ne_write _)
      | compound l j r' =>
          rw [write_compound, List.append_assoc] at h
          obtain ⟨hhead, htail⟩ := head_append_inj (fun _ => ArgList.isDelimiter_of_head?)
            (fun _ => ArgList.isDelimiter_of_head?) h
          obtain ⟨hlist, huv⟩ := helements _ _ rfl rfl u v htail
          obtain rfl : k = l := kinds_eq_of_head hhead rfl
          cases hlist
          exact ⟨rfl, huv⟩

/-- What is written of a shape begins with a letter, or with the parenthesis of its elements. -/
theorem exists_write (hkinds : s.isCompound = false → s.kinds.isEmpty = false) :
    ∃ x w, s.write = x :: w ∧ (isDelimiter x = false ∨ x = '(') := by
  cases hhead : s.head with
  | cons x w =>
      have hx : isDelimiter x = false := isDelimiter_of_mem_head (hhead ▸ List.mem_cons_self)
      cases s with
      | plain k => exact ⟨x, w, by rw [write_plain, hhead], .inl hx⟩
      | compound k i r =>
          exact ⟨x, _, by rw [write_compound, hhead, List.cons_append], .inl hx⟩
  | nil =>
      cases s with
      | plain k =>
          rw [head] at hhead
          split_ifs at hhead
          exact absurd hhead (Kinds.letters_ne_nil (hkinds rfl))
      | compound k i r =>
          obtain ⟨w, hw⟩ := ArgList.exists_write ⟨i, r⟩
          exact ⟨'(', w, by rw [write_compound, hhead, hw]; rfl, .inr rfl⟩

end Shape

/-! ### Words -/

theorem AfterWord.not_isDigit (hu : AfterWord u) : ∀ x ∈ u.head?, x.isDigit = false := by
  intro x hx
  rcases hu x hx with rfl | rfl <;> decide

theorem AfterWord.ne_times (hu : AfterWord u) (w : List Char) : u ≠ '×' :: w := by
  intro h
  have := hu '×' (by rw [h]; rfl)
  revert this
  decide

namespace Run
variable {a b r : Run}

/-- A word of a run, for one of its arguments or for all of them. -/
def word (r : Run) : List Char :=
  (if r.presence = .optional then ['.', ' '] else []) ++ (r.shape.write ++ writeTimes r.count)

/-- A run as it is written: in one word, or in one for each of its arguments. -/
def words (r : Run) : List Run :=
  if r.count > longestWritten then [r] else List.replicate r.count (r.withCount 1)

theorem write_eq (r : Run) : r.write = r.words.map word := by
  obtain ⟨n, p, s⟩ := r
  rw [write, words]
  dsimp only
  by_cases h : n > longestWritten
  · rw [if_pos h, if_pos h, List.append_assoc]
    rfl
  · rw [if_neg h, if_neg h, List.map_replicate, word, writeTimes, if_neg h, List.append_assoc]
    rfl

theorem writeList_eq (s : Segment) : writeList s = (s.flatMap words).map word := by
  induction s with
  | nil => rfl
  | cons r s ih => rw [writeList, ih, write_eq, List.flatMap_cons, List.map_append]

theorem cells_words (s : Segment) : Segment.cells (s.flatMap words) = Segment.cells s := by
  induction s with
  | nil => rfl
  | cons r s ih =>
      rw [List.flatMap_cons, Segment.cells_append, ih, Segment.cells_cons, words]
      split_ifs
      · rw [Segment.cells_cons, Segment.cells_nil, List.append_nil]
      · congr 1
        induction r.count with
        | zero => rfl
        | succ n ih => rw [List.replicate_succ, Segment.cells_cons, ih]; rfl

/-- A run that is written in one word. -/
structure Worded (r : Run) : Prop where
  count : r.count = 1 ∨ r.count > longestWritten
  kinds : r.shape.isCompound = false → r.shape.kinds.isEmpty = false

theorem shape_of_mem_words (h : a ∈ r.words) : a.shape = r.shape := by
  rw [words] at h
  split_ifs at h
  · rw [List.mem_singleton.mp h]
  · rw [List.eq_of_mem_replicate h]
    rfl

theorem worded_of_mem_words (hkinds : r.shape.isCompound = false → r.shape.kinds.isEmpty = false)
    (h : a ∈ r.words) : a.Worded := by
  refine ⟨?_, by rwa [shape_of_mem_words h]⟩
  rw [words] at h
  split_ifs at h with hr
  · rw [List.mem_singleton.mp h]
    exact .inr hr
  · rw [List.eq_of_mem_replicate h]
    exact .inl rfl

theorem afterShape_writeTimes (n : ℕ) (hu : AfterWord u) : AfterShape (writeTimes n ++ u) := by
  intro x hx
  rw [writeTimes] at hx
  split_ifs at hx
  · exact .inr (.inr (Option.some.inj hx).symm)
  · exact (hu x hx).imp_right .inl

theorem writeTimes_append_inj {m n : ℕ} (hm : m = 1 ∨ m > longestWritten)
    (hn : n = 1 ∨ n > longestWritten) (hu : AfterWord u) (hv : AfterWord v)
    (h : writeTimes m ++ u = writeTimes n ++ v) : m = n ∧ u = v := by
  have hdigit : ∀ n : ℕ, ∀ x ∈ (toString n).toList, x.isDigit = true := by
    intro n x hx
    exact Nat.isDigit_of_mem_toDigits (by decide) (by decide) (Nat.toList_repr ▸ hx)
  rw [writeTimes, writeTimes] at h
  split_ifs at h with hm' hn' hn'
  · obtain ⟨hdigits, huv⟩ := append_inj_of_head? (hdigit m) hu.not_isDigit (hdigit n)
      hv.not_isDigit (List.cons.inj h).2
    refine ⟨toDigits_injective ?_, huv⟩
    rw [← Nat.toList_repr, ← Nat.toList_repr]
    exact hdigits
  · exact absurd h.symm (hv.ne_times _)
  · exact absurd h (hu.ne_times _)
  · exact ⟨(hm.resolve_right hm').trans (hn.resolve_right hn').symm, h⟩

/-- A word begins neither as the end of its list nor as the bar. -/
theorem Worded.exists_word (h : r.Worded) :
    ∃ x w, r.word = x :: w ∧ x ≠ ' ' ∧ x ≠ ')' ∧ x ≠ '|' := by
  rw [word]
  split_ifs
  · exact ⟨'.', _, rfl, by decide⟩
  · obtain ⟨x, w, hw, hx⟩ := Shape.exists_write h.kinds
    refine ⟨x, w ++ writeTimes r.count, by rw [hw]; rfl, ?_⟩
    rcases hx with hx | rfl
    · refine ⟨?_, ?_, ?_⟩ <;> rintro rfl <;> revert hx <;> decide
    · decide

theorem dot_of_optional (h : r.presence = .optional) : ∃ w, r.word ++ u = '.' :: w := by
  rw [word, if_pos h]
  exact ⟨_, rfl⟩

theorem Worded.ne_dot (hr : r.Worded) (h : r.presence = .required) (w : List Char) :
    r.word ++ u ≠ '.' :: w := by
  obtain ⟨x, w', hw, hx⟩ := Shape.exists_write hr.kinds
  rw [word, h, hw]
  intro heq
  cases heq
  revert hx
  decide

theorem presence_eq_of_word (ha : a.Worded) (hb : b.Worded) (h : a.word ++ u = b.word ++ v) :
    a.presence = b.presence := by
  cases hp : a.presence with
  | required =>
      cases hq : b.presence with
      | required => rfl
      | optional =>
          obtain ⟨w, hw⟩ := dot_of_optional (u := v) hq
          exact absurd (h.trans hw) (ha.ne_dot hp w)
  | optional =>
      cases hq : b.presence with
      | optional => rfl
      | required =>
          obtain ⟨w, hw⟩ := dot_of_optional (u := u) hp
          exact absurd (h.symm.trans hw) (hb.ne_dot hq w)

theorem word_append_inj (ha : a.Worded) (hb : b.Worded)
    (helements : a.shape.ElementsToldApart b.shape)
    (hu : AfterWord u) (hv : AfterWord v) (h : a.word ++ u = b.word ++ v) : a = b ∧ u = v := by
  have hpresence := presence_eq_of_word ha hb h
  rw [word, word, hpresence, List.append_assoc, List.append_assoc, List.append_assoc,
    List.append_assoc, List.append_right_inj] at h
  obtain ⟨hshape, htimes⟩ := Shape.write_append_inj helements (afterShape_writeTimes a.count hu)
    (afterShape_writeTimes b.count hv) h
  obtain ⟨hcount, huv⟩ := writeTimes_append_inj ha.count hb.count hu hv htimes
  obtain ⟨m, p, s⟩ := a
  obtain ⟨n, q, t⟩ := b
  cases hpresence
  cases hshape
  cases hcount
  exact ⟨rfl, huv⟩

/-- Words behind one another, each behind a blank. -/
def spaced (rs : List Run) : List Char :=
  (rs.map word).flatMap (' ' :: ·)

theorem spaced_cons (r : Run) (rs : List Run) : spaced (r :: rs) = ' ' :: r.word ++ spaced rs := by
  rw [spaced, List.map_cons, List.flatMap_cons]
  rfl

theorem afterWord_spaced (rs : List Run) (hu : AfterWord u) : AfterWord (spaced rs ++ u) := by
  cases rs with
  | nil => exact hu
  | cons r rs =>
      intro x hx
      rw [spaced_cons] at hx
      exact .inl (Option.some.inj hx).symm

/-- Whatever ends words is not taken for another one. -/
theorem Worded.ne_spaced (h : r.Worded) (hu : AfterWords u) (w : List Char) :
    u ≠ ' ' :: r.word ++ w := by
  obtain ⟨x, w', hw, -, -, hbar⟩ := h.exists_word
  rw [hw]
  intro heq
  cases hu <;> cases heq
  exact hbar rfl

variable {rs ts : List Run}

theorem spaced_append_inj (hrs : ∀ r ∈ rs, r.Worded) (hts : ∀ t ∈ ts, t.Worded)
    (helements : ∀ r ∈ rs, ∀ t ∈ ts, r.shape.ElementsToldApart t.shape)
    (hu : AfterWords u) (hv : AfterWords v) (h : spaced rs ++ u = spaced ts ++ v) :
    rs = ts ∧ u = v := by
  induction rs generalizing ts with
  | nil =>
      cases ts with
      | nil => exact ⟨rfl, h⟩
      | cons t ts =>
          rw [spaced_cons, List.append_assoc] at h
          exact absurd h ((hts t List.mem_cons_self).ne_spaced hu _)
  | cons r rs ih =>
      rw [spaced_cons, List.append_assoc] at h
      cases ts with
      | nil => exact absurd h.symm ((hrs r List.mem_cons_self).ne_spaced hv _)
      | cons t ts =>
          rw [spaced_cons, List.append_assoc] at h
          obtain ⟨hword, hrest⟩ := word_append_inj (hrs r List.mem_cons_self)
            (hts t List.mem_cons_self) (helements r List.mem_cons_self t List.mem_cons_self)
            (afterWord_spaced rs hu.afterWord) (afterWord_spaced ts hv.afterWord)
            (List.cons.inj h).2
          obtain ⟨hwords, huv⟩ := ih (fun q hq => hrs q (List.mem_cons_of_mem r hq))
            (fun q hq => hts q (List.mem_cons_of_mem t hq))
            (fun q hq q' hq' => helements q (List.mem_cons_of_mem r hq) q'
              (List.mem_cons_of_mem t hq')) hrest
          rw [hword, hwords]
          exact ⟨rfl, huv⟩

/-- Words behind one another, with a blank between any two of them. -/
def joined (rs : List Run) : List Char :=
  [' '].intercalate (rs.map word)

theorem joined_cons (r : Run) (rs : List Run) : joined (r :: rs) = r.word ++ spaced rs := by
  rw [joined, List.map_cons, intercalate_cons, spaced]

theorem Worded.ne_joined (h : r.Worded) (hu : AfterWords u) (w : List Char) :
    u ≠ r.word ++ w := by
  obtain ⟨x, w', hw, hblank, hclose, -⟩ := h.exists_word
  rw [hw]
  intro heq
  cases hu with
  | close u => exact hclose (List.cons.inj heq).1.symm
  | bar u => exact hblank (List.cons.inj heq).1.symm

theorem joined_append_inj (hrs : ∀ r ∈ rs, r.Worded) (hts : ∀ t ∈ ts, t.Worded)
    (helements : ∀ r ∈ rs, ∀ t ∈ ts, r.shape.ElementsToldApart t.shape)
    (hu : AfterWords u) (hv : AfterWords v) (h : joined rs ++ u = joined ts ++ v) :
    rs = ts ∧ u = v := by
  cases rs with
  | nil =>
      cases ts with
      | nil => exact ⟨rfl, h⟩
      | cons t ts =>
          rw [joined_cons, List.append_assoc] at h
          exact absurd h ((hts t List.mem_cons_self).ne_joined hu _)
  | cons r rs =>
      cases ts with
      | nil =>
          rw [joined_cons, List.append_assoc] at h
          exact absurd h.symm ((hrs r List.mem_cons_self).ne_joined hv _)
      | cons t ts =>
          refine spaced_append_inj hrs hts helements hu hv ?_
          rw [joined_cons, joined_cons] at h
          rw [spaced_cons, spaced_cons]
          exact congrArg (' ' :: ·) h

end Run

/-! ### Lists -/

namespace ArgList
variable {a b l m : ArgList}

theorem WellFormed.worded (h : l.WellFormed) {s : Segment} (hs : s ⊆ l.runs) {r : Run}
    (hr : r ∈ s.flatMap Run.words) : r.Worded := by
  obtain ⟨q, hq, hr⟩ := List.mem_flatMap.mp hr
  obtain ⟨here, -⟩ := h
  exact Run.worded_of_mem_words (here q (hs hq)).2 hr

theorem elementsToldApart_words {s t : Segment} (hs : s ⊆ l.runs) (ht : t ⊆ m.runs)
    (h : ∀ q ∈ l.runs, ∀ r ∈ m.runs, q.shape.ElementsToldApart r.shape) :
    ∀ q ∈ s.flatMap Run.words, ∀ r ∈ t.flatMap Run.words,
      q.shape.ElementsToldApart r.shape := by
  intro q hq r hr
  obtain ⟨q', hq', hq⟩ := List.mem_flatMap.mp hq
  obtain ⟨r', hr', hr⟩ := List.mem_flatMap.mp hr
  rw [Run.shape_of_mem_words hq, Run.shape_of_mem_words hr]
  exact h q' (hs hq') r' (ht hr')

theorem eq_of_words {s t : Segment} (hs : Segment.Positive s) (ht : Segment.Positive t)
    (hsc : Segment.Coalesced s) (htc : Segment.Coalesced t)
    (h : s.flatMap Run.words = t.flatMap Run.words) : s = t := by
  refine Segment.cells_injective hs ht hsc htc ?_
  rw [← Run.cells_words s, h, Run.cells_words]

/-- The bar and the words of the loop, if there is one. -/
def loopText (l : ArgList) : List Char :=
  if l.isFinite then [] else ' ' :: '|' :: Run.spaced (l.repeated.flatMap Run.words)

theorem write_eq (l : ArgList) : l.write =
    '(' :: (Run.joined (l.initial.flatMap Run.words) ++ (l.loopText ++ [')'])) := by
  rw [write, Run.writeList_eq, Run.writeList_eq, List.append_assoc]
  rfl

theorem afterWords_loopText (l : ArgList) (u : List Char) :
    AfterWords (l.loopText ++ ')' :: u) := by
  rw [loopText]
  split_ifs
  · exact .close u
  · exact .bar _

theorem loopText_append_inj (hl : l.WellFormed) (hm : m.WellFormed)
    (helements : ∀ q ∈ l.runs, ∀ r ∈ m.runs, q.shape.ElementsToldApart r.shape)
    (h : l.loopText ++ ')' :: u = m.loopText ++ ')' :: v) :
    l.repeated.flatMap Run.words = m.repeated.flatMap Run.words ∧ u = v := by
  rw [loopText, loopText] at h
  split_ifs at h with hfin hfin' hfin'
  · rw [isFinite_iff.mp hfin, isFinite_iff.mp hfin']
    exact ⟨rfl, (List.cons.inj h).2⟩
  · cases h
  · cases h
  · have hloop := (List.cons.inj (List.cons.inj h).2).2
    have hwords := Run.spaced_append_inj
      (fun r hr => hl.worded (List.subset_append_right _ _) hr)
      (fun t ht => hm.worded (List.subset_append_right _ _) ht)
      (elementsToldApart_words (List.subset_append_right _ _)
        (List.subset_append_right _ _) helements)
      (.close u) (.close v) hloop
    exact ⟨hwords.1, (List.cons.inj hwords.2).2⟩

/-- Texts that begin with lists in normal form tell these apart. -/
theorem toldApart_of_normal (hl : l.WellFormed) (hnl : l.normalize = l) (hm : m.WellFormed)
    (hnm : m.normalize = m) : l.ToldApart m := by
  induction hl generalizing m with
  | @intro l here elements ih =>
      have hl : l.WellFormed := .intro here elements
      have hnormal : l.Normal := hnl ▸ normal_normalize hl.positive
      have hnormal' : m.Normal := hnm ▸ normal_normalize hm.positive
      have helements : ∀ q ∈ l.runs, ∀ r ∈ m.runs, q.shape.ElementsToldApart r.shape := by
        intro q hq r hr l' m' hl' hm'
        have hnl' := (Shape.normalize_eq_iff _).mp (shape_normalize_eq hl.positive hnl hq) l' hl'
        have hnm' := (Shape.normalize_eq_iff _).mp (shape_normalize_eq hm.positive hnm hr) m' hm'
        exact ih q hq l' hl' hnl' (hm.elements hr hm') hnm'
      intro u v h
      rw [write_eq, write_eq, List.cons_append, List.cons_append] at h
      have hlists := (List.cons.inj h).2
      rw [List.append_assoc, List.append_assoc, List.append_assoc, List.append_assoc] at hlists
      obtain ⟨hinitial, hrest⟩ := Run.joined_append_inj
        (fun r hr => hl.worded (List.subset_append_left _ _) hr)
        (fun t ht => hm.worded (List.subset_append_left _ _) ht)
        (elementsToldApart_words (List.subset_append_left _ _)
          (List.subset_append_left _ _) helements)
        (afterWords_loopText l u) (afterWords_loopText m v) hlists
      obtain ⟨hrepeated, huv⟩ := loopText_append_inj hl hm helements hrest
      have hi := eq_of_words hnormal.positive.1 hnormal'.positive.1 hnormal.initial
        hnormal'.initial hinitial
      have hr := eq_of_words hnormal.positive.2 hnormal'.positive.2 hnormal.repeated
        hnormal'.repeated hrepeated
      cases l
      cases m
      cases hi
      cases hr
      exact ⟨rfl, huv⟩

theorem text_inj (ha : a.WellFormed) (hna : a.normalize = a) (hb : b.WellFormed)
    (hnb : b.normalize = b) : a.text = b.text ↔ a = b := by
  refine ⟨fun h => ?_, fun h => by rw [h]⟩
  have hwrite : a.write ++ [] = b.write ++ [] := by
    rw [List.append_nil, List.append_nil]
    exact String.ofList_injective h
  exact (toldApart_of_normal ha hna hb hnb [] [] hwrite).1

/-- What is written of lists in normal form tells them apart. So two accepted strings of which the
lists are written alike accept the same arguments. -/
theorem text_faithful :
    (∀ a b : ArgList, a.WellFormed → a.normalize = a → b.WellFormed → b.normalize = b →
      (a.text = b.text ↔ a = b)) ∧
    ∀ (s t : String) (f g : FormatSpec), (FormatString.parse s).result = .ok f →
      (FormatString.parse t).result = .ok g → f.arguments.text = g.arguments.text →
      ∀ xs, f.arguments.Accepts xs ↔ g.arguments.Accepts xs := by
  refine ⟨fun a b ha hna hb hnb => text_inj ha hna hb hnb, fun s t f g hf hg h xs => ?_⟩
  obtain ⟨_, hf⟩ := FormatString.reduced hf
  obtain ⟨_, hg⟩ := FormatString.reduced hg
  rw [(text_inj hf.wellFormed hf.normal hg.wellFormed hg.normal).mp h]

/-- Lists with runs of nine and of eight arguments in their loops, and two strings with the same
arguments. -/
theorem text_faithful_runs :
    let elements : Shape := .compound .sequences [⟨1, .required, .plain (.ofList [.char])⟩] []
    let initial : List Run := [⟨1000000, .required, .any⟩, ⟨2, .required, elements⟩]
    let a : ArgList := ⟨initial, [⟨9, .optional, elements⟩, ⟨1, .optional, .any⟩]⟩
    let b : ArgList := ⟨initial, [⟨8, .optional, elements⟩, ⟨1, .optional, .any⟩]⟩
    let number : Run := ⟨1, .required, .plain (.ofList [.bool, .integer, .char])⟩
    let f : FormatSpec := ⟨2, 2, .finite [number, ⟨1, .required, .any⟩]⟩
    let g : FormatSpec := ⟨3, 3, .finite [number, ⟨1, .required, .any⟩]⟩
    (a.WellFormed ∧ a.normalize = a ∧ b.WellFormed ∧ b.normalize = b) ∧
      a.text = "(*×1000000 1(c) 1(c) | . 1(c)×9 . *)" ∧ a.text ≠ b.text ∧
      (FormatString.parse "%d: %s").result = .ok f ∧
      (FormatString.parse "%2$s (%1$d, %1$d)").result = .ok g ∧
      ∀ xs, f.arguments.Accepts xs ↔ g.arguments.Accepts xs := by
  intro elements initial a b number f g
  obtain ⟨ha, hna, hb, hnb⟩ : a.WellFormed ∧ a.normalize = a ∧ b.WellFormed ∧ b.normalize = b := by
    decide +kernel
  have hab : a ≠ b := by decide
  have hf : (FormatString.parse "%d: %s").result = .ok f := by decide +kernel
  have hg : (FormatString.parse "%2$s (%1$d, %1$d)").result = .ok g := by decide +kernel
  obtain ⟨hlists, hstrings⟩ := text_faithful
  exact ⟨⟨ha, hna, hb, hnb⟩, by decide +kernel, (hlists a b ha hna hb hnb).not.mpr hab, hf, hg,
    hstrings _ _ f g hf hg rfl⟩

end ArgList

end CatalogLint
