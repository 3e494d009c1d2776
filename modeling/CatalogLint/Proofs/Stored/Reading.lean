import CatalogLint.Proofs.Stored.Level
import CatalogLint.Proofs.Stored.Scan

/-!
# Reading strings of any length

Reading a text that a machine can hold ends without a defect, with what reading its directives
one by one yields (`StoredSpec.parse_eq`). Explicit numbers take up at most half of the machine
numbers; every other argument is asked for by a byte of its own.
-/
namespace CatalogLint
open Use

/-! ### Heads -/

theorem WrittenPosition.within (q : WrittenPosition) : q.position.Within largestNumber := by
  cases q with
  | absent => trivial
  | single m => exact m.bounded
  | range m n ordered => exact n.bounded
  | toLast m => exact m.bounded

theorem Amount.within {a : Amount} {r : Reference} (h : a.reference? = some r) :
    r.position.Within largestNumber := by
  cases a with
  | digits => cases h
  | next =>
      cases h
      trivial
  | numbered m =>
      cases h
      exact m.bounded

namespace Opening

theorem valid (o : Opening) : o.head.Valid :=
  o.head_preamble ▸ o.preamble.valid

theorem within (o : Opening) : Level.HeadWithin largestNumber o.head := by
  refine ⟨o.position.within, fun q hq => ?_⟩
  obtain ⟨-, ⟨r, hr, hpos⟩ | hpos⟩ := Head.mem_auxiliary hq
  · rw [hpos]
    rcases hr with hr | hr
    · obtain ⟨a, -, hr⟩ := Option.bind_eq_some_iff.mp hr
      exact Amount.within hr
    · obtain ⟨q, -, hr⟩ := Option.bind_eq_some_iff.mp hr
      obtain ⟨a, -, hr⟩ := Option.bind_eq_some_iff.mp hr
      exact Amount.within hr
  · rw [hpos]
    trivial

/-- Every argument that is referred to beside the formatted ones has a character of its own. -/
theorem length_auxiliary_le (o : Opening) : o.head.auxiliary.length ≤ o.text.length := by
  have hmap : ∀ (r : Option Reference) (k : Kinds),
      (r.map fun r => (r.position, k)).toList.length = r.toList.length := by
    intro r k
    cases r <;> rfl
  have hamount : ∀ a : Amount, a.reference?.toList.length ≤ a.text.length := by
    intro a
    cases a <;> simp [Amount.reference?, Amount.text]
  have hwidth : o.head.width.toList.length ≤ o.widthText.length := by
    unfold head widthText
    cases o.width with
    | none => exact Nat.le_refl 0
    | some a => exact hamount a
  have hprecision : o.head.precision.toList.length ≤ o.precisionText.length := by
    unfold head precisionText
    rcases o.precision with _ | _ | a
    · exact Nat.le_refl 0
    · exact Nat.zero_le _
    · exact (hamount a).trans (Nat.le_succ _)
  have hseparator : (if o.head.groupSize then 1 else 0) + (if o.head.separator then 1 else 0) ≤
      o.separatorText.length := by
    unfold head separatorText
    rcases o.separator with _ | ⟨_ | n | _, _ | _⟩ <;>
      simp [GroupSize.text, GroupSize.numeral?]
  rw [Head.auxiliary, text]
  simp only [List.length_append, hmap, apply_ite List.length, List.length_singleton,
    List.length_nil]
  omega

end Opening

namespace Cursor

theorem byteLength_ge (cs : List Char) : cs.length ≤ Text.byteLength cs := by
  induction cs with
  | nil => exact Nat.le_refl 0
  | cons c cs ih =>
      have := c.utf8Size_pos
      rw [List.length_cons, Text.byteLength]
      omega

end Cursor

theorem specifierKinds_of_le {c : Char} (h : 128 ≤ c.toNat) : specifierKinds c = none := by
  unfold specifierKinds
  split
  all_goals first | rfl | exact absurd h (by decide)

/-! ### Levels -/

namespace ByteScan
variable {text : List Char} {l : Level} {us : List Use} {k n p : ℕ} {inCompound : Bool}
  {marks : List Indicator}

/-- Reading a level in one pass yields what reading its directives does, and comes to the end of
the level where scanning does. -/
inductive Reads (text : List Char) (inCompound : Bool) : Except Fault FormatSpec → Option Cursor →
    Checked (Except Fault StoredLevel × Scanner) → Prop where
  | fault (e : Fault) (after : Option Cursor) (s : Scanner) :
      Reads text inCompound (.error e) after (.ok (.error e, s))
  | ended {f : FormatSpec} {after : Option Cursor} {us : List Use} {used : Option ℕ} {s : Scanner}
      (built : f.arguments.Built us) (storable : f.arguments.Storable .bits64)
      (closed : inCompound = true → ∃ d, after = some d ∧ d.In text ∧ d.place = s.pos + 1 ∧
        0 < s.pos) :
      Reads text inCompound (.ok f) after
        (.ok (.ok ⟨f.directives, f.deliberate, some f.arguments.stored, used⟩, s))

/-- Reading levels does so wherever fewer than `n` characters are left. -/
def ReadsFrom (text : List Char) (n : ℕ) (read : LevelReader) : Prop :=
  ∀ (inCompound : Bool) (c : Cursor) (l : Level) (us : List Use) (marks : List Indicator),
    c.In text → c.rest.length < n → l.Holds us → l.Bounded (largestNumber + c.place) →
      Reads text inCompound ((scan inCompound l.directives c).directives.read l).result
        (scan inCompound l.directives c).after (read inCompound l.stored ⟨c.place, marks⟩)

/-- The end of a level. -/
theorem finish_reads (hl : l.Holds us) (hb : l.Bounded n) (hfits : Word.bits64.Fits n)
    {after : Option Cursor} {s : Scanner} (hclosed : inCompound = true → ∃ d, after = some d ∧
      d.In text ∧ d.place = s.pos + 1 ∧ 0 < s.pos) :
    Reads text inCompound l.finish after (do
      let result ← l.stored.finish .bits64
      return (result, s)) := by
  obtain ⟨hstored, hstorable⟩ := hb.finish_stored (d := l.directives) hfits
  have hfinish := hl.finish
  rw [Level.stored, hstored, Checked.ok_bind]
  cases hf : l.finish with
  | error e => exact .fault e after s
  | ok f =>
      rw [hf] at hfinish
      have hdirectives : f.directives = l.directives := by
        rw [Level.finish] at hf
        split at hf <;> cases hf
        rfl
      rw [← hdirectives]
      exact .ended hfinish (hstorable f hf) hclosed

/-- The shape that the body of a compound directive gives the argument. -/
theorem elementShape_eq {f : FormatSpec} {used : Option ℕ} {d : ℕ} {s : Scanner} (hs : 0 < s.pos) :
    elementShape k ⟨d, f.deliberate, some f.arguments.stored, used⟩ s =
      .ok (match f.elementShape k with
        | .error e => .error ⟨e, s.pos - 1⟩
        | .ok t => .ok t.stored) := by
  have hstored : ∀ k : Kinds, (Shape.compound k f.arguments.initial f.arguments.repeated).stored =
      ⟨k, true, some f.arguments.stored⟩ := by
    intro k
    simp only [Shape.stored, ArgList.stored, Segment.stored, Run.storedList_eq]
  rw [elementShape, FormatSpec.elementShape]
  dsimp only
  rw [ArgList.isFinite_stored, ArgList.initial_stored, Segment.length_stored, Checked.sub_eq hs]
  split_ifs
  · rfl
  · generalize Segment.extent f.arguments.initial = n
    rcases n with _ | _ | _ | n
    · rfl
    · exact congrArg (fun s => Except.ok (Except.ok s)) (hstored .sequences).symm
    · exact congrArg (fun s => Except.ok (Except.ok s)) (hstored .tables).symm
    · rfl

/-- There is room for two numbers that are not too large, and one more. -/
theorem fits_largestNumber (h : n ≤ 2 * largestNumber + 1) : Word.bits64.Fits n :=
  Word.fits_bits64.mpr (Nat.lt_succ_of_le h)

theorem fits_byteLength (htext : Text.byteLength text ≤ largestNumber) :
    Word.bits64.Fits (Text.byteLength text) :=
  fits_largestNumber (by omega)

/-- The head of a directive has been read up to `d`, where at most `n` characters are left. The
level before it has numbers up to `m`, and every further argument of the head has a byte. -/
structure Headed (text : List Char) (n m start : ℕ) (l : Level) (us : List Use) (head : Head)
    (d : Cursor) : Prop where
  holds : l.Holds us
  bounded : l.Bounded m
  valid : head.Valid
  within : Level.HeadWithin m head
  cursor : d.In text
  length : d.rest.length ≤ n
  place : m + head.auxiliary.length ≤ largestNumber + d.place
  start : start < d.place

section Specifier
variable {read : LevelReader} {head : Head} {d : Cursor} {start place : ℕ} {rest : List Char}

theorem scanSpecifier_open : scanSpecifier inCompound k start head place ('(' :: rest) =
    match (scan true 0 ⟨place + 1, rest⟩).after with
    | none => (.broken start (Cursor.placeOrLast ⟨place + 1, rest⟩)
        (scan true 0 ⟨place + 1, rest⟩).directives, none)
    | some f => (.compound start head (Cursor.placeOrLast ⟨place + 1, rest⟩)
        (scan true 0 ⟨place + 1, rest⟩).directives f.place
          (scan inCompound (k + 1) f).directives, (scan inCompound (k + 1) f).after) :=
  rfl

theorem scanSpecifier_bar : scanSpecifier true k start head place ('|' :: rest) =
    match scanDelimiter (k + 1) (place + 1) rest with
    | .error f => (.faulty start f.fault f.place, none)
    | .ok f => (.done, some f) :=
  rfl

theorem conversion_open (hd : d.In text) (hrest : d.rest = '(' :: rest) :
    conversion .bits64 text read k inCompound ⟨d.place, marks⟩ =
      compound .bits64 text read k ⟨d.place, marks⟩ := by
  rw [conversion]
  dsimp only
  rw [(hd.byte_eq_some (by decide)).mpr ⟨rest, hrest⟩]
  rfl

theorem conversion_bar (hd : d.In text) (hfits : Word.bits64.Fits (Text.byteLength text))
    (hrest : d.rest = '|' :: rest) :
    conversion .bits64 text read k true ⟨d.place, marks⟩ = (do
      match ← delimiter .bits64 (Text.bytes text) k (Text.bytes rest) (d.place + 1) with
      | .error f => return Scanner.fail ⟨d.place, marks⟩ f
      | .ok pos => return (.ok .endCompound, ⟨pos, marks⟩)) := by
  have he : Cursor.In text ⟨d.place + 1, rest⟩ := hd.next hrest
  have hbar : specifierKinds '|' = none := rfl
  rw [conversion]
  dsimp only
  rw [(hd.byte_eq_some (by decide)).mpr ⟨rest, hrest⟩]
  dsimp only
  rw [hbar]
  dsimp only
  rw [if_neg (by decide), if_pos rfl, if_pos rfl, add_place hd hfits hrest, Checked.ok_bind,
    he.drop_bytes]
  rfl

end Specifier

section Directive
variable {read : LevelReader} {head : Head} {d e : Cursor} {t : Shape} {m start : ℕ} {s : Char}
  {rest : List Char} (h : Headed text n m start l us head d)
  (htext : Text.byteLength text ≤ largestNumber)
include h htext

theorem Headed.fits_bounded : Word.bits64.Fits m := by
  have hplace := h.place
  have hpos := h.cursor.place_add
  exact fits_largestNumber (by omega)

variable (inCompound) in
/-- The rest of a level after a directive. -/
theorem addDirective_reads (hread : ReadsFrom text n read) (ht : t.Settled) (he : e.In text)
    (hlength : e.rest.length < d.rest.length) (hlt : d.place < e.place) {s : Scanner}
    (hs : e.place = s.pos + 1) :
    Reads text inCompound (match l.add head t with
        | none => .error (.pastLastArgument (l.directives + 1))
        | some l' => ((scan inCompound (l.directives + 1) e).directives.read l').result)
      (scan inCompound (l.directives + 1) e).after
      (addDirective .bits64 read inCompound (l.storedAs (l.directives + 1)) head t.stored s) := by
  have hplace := h.place
  have hpos := he.place_add
  have hfits : Word.bits64.Fits (m + head.auxiliary.length + 1) := fits_largestNumber (by omega)
  obtain ⟨hstored, hnext⟩ := h.holds.add_stored h.bounded ht h.valid h.within hfits
  rw [addDirective, hstored, Checked.ok_bind]
  cases hadd : l.add head t with
  | none => exact .fault _ _ _
  | some l' =>
      obtain ⟨hbounded, hdirectives⟩ := hnext l' hadd
      have hholds := h.holds.add ht (fun x => Iff.rfl) h.valid hadd
      have hrest := hread inCompound e l' _ (s.mark (.stop s.pos)).indicators he
        (hlength.trans_le h.length) hholds (hbounded.mono (by omega))
      rw [hdirectives] at hrest
      rw [Option.map_some]
      dsimp only
      rw [Word.add_eq (fits_largestNumber (by omega)), Checked.ok_bind, ← hs]
      exact hrest

omit h htext in
theorem result_value (start stop : ℕ) (kinds : Kinds) (rest : Directives) :
    ((Directives.value start head kinds stop rest).read l).result =
      match l.add head (.plain kinds) with
      | none => .error (.pastLastArgument (l.directives + 1))
      | some l' => (rest.read l').result := by
  rw [Directives.read]
  cases l.add head (.plain kinds) <;> rfl

omit h htext in
theorem result_compound {body : Directives} {f : FormatSpec} (start opening stop : ℕ)
    (rest : Directives) (hbody : (body.read .outset).result = .ok f)
    (hshape : f.elementShape (l.directives + 1) = .ok t) :
    ((Directives.compound start head opening body stop rest).read l).result =
      match l.add head t with
      | none => .error (.pastLastArgument (l.directives + 1))
      | some l' => (rest.read l').result := by
  simp only [Directives.read, Reading.after, hbody, hshape]
  cases l.add head t <;> rfl

/-- The end of a level at the end of a compound directive. -/
theorem endCompound_reads {s : Scanner} (he : e.In text) (hplace : e.place = s.pos + 1)
    (hs : 0 < s.pos) :
    Reads text true l.finish (some e)
      (endCompound .bits64 (l.storedAs (l.directives + 1)) start s) := by
  have hsub : Checked.sub (l.storedAs (l.directives + 1)).directives 1 = .ok l.directives :=
    Checked.sub_eq (Nat.le_add_left 1 _)
  rw [endCompound, hsub, Checked.ok_bind]
  exact finish_reads (s := s.unmark start) h.holds h.bounded (h.fits_bounded htext)
    fun _ => ⟨e, rfl, he, hplace, hs⟩

/-- Reading on from a specifier that formats a single value. -/
theorem readDirective_value (hread : ReadsFrom text n read) (hrest : d.rest = s :: rest)
    (hs : s.toNat < 128) {kinds : Kinds} (hk : specifierKinds s = some kinds) :
    Reads text inCompound
      ((scanSpecifier inCompound l.directives start head d.place (s :: rest)).1.read l).result
      (scanSpecifier inCompound l.directives start head d.place (s :: rest)).2
      (readDirective .bits64 text read inCompound (l.storedAs (l.directives + 1)) start head
        ⟨d.place, marks⟩) := by
  have he := h.cursor.next hrest
  have hsize := Text.utf8Size_of_lt hs
  have hadd := addDirective_reads inCompound (s := ⟨d.place, marks⟩) h htext hread
    (.plain (Kinds.conversion_of_specifierKinds hk)) he (by rw [hrest]; exact Nat.lt_succ_self _)
    (by dsimp only; omega) (by dsimp only; omega)
  rw [readDirective, conversion]
  dsimp only
  rw [(h.cursor.byte_eq_some hs).mpr ⟨rest, hrest⟩]
  dsimp only
  rw [scanSpecifier, hk]
  dsimp only
  rw [result_value]
  exact hadd

omit htext in
/-- Reading on from the end of the string, or from what is no specifier. -/
theorem readDirective_other (hrest : ∀ s rest, d.rest = s :: rest →
      specifierKinds s = none ∧ s ≠ '(' ∧ s ≠ ')' ∧ s ≠ '|') :
    Reads text inCompound
      ((scanSpecifier inCompound l.directives start head d.place d.rest).1.read l).result
      (scanSpecifier inCompound l.directives start head d.place d.rest).2
      (readDirective .bits64 text read inCompound (l.storedAs (l.directives + 1)) start head
        ⟨d.place, marks⟩) := by
  rw [readDirective, conversion]
  dsimp only
  rw [h.cursor.byte_eq]
  cases hd : d.rest with
  | nil => exact .fault _ _ _
  | cons s rest =>
      obtain ⟨b, bs, hbytes, -, hcases⟩ := Text.exists_bytes_cons s
      have hs := hrest s rest hd
      have hb : specifierKinds b = none ∧ b ≠ '(' ∧ b ≠ ')' ∧ b ≠ '|' := by
        rcases hcases with ⟨rfl, -⟩ | ⟨-, hall⟩
        · exact hs
        · have hle := hall b List.mem_cons_self
          refine ⟨specifierKinds_of_le hle, ?_, ?_, ?_⟩ <;> rintro rfl <;>
            exact absurd hle (by decide)
      have hcharacter : characterAt text d.place = .ok s := by
        rw [characterAt, h.cursor.dropBytes, hd]
        rfl
      rw [hbytes, List.head?_cons, scanSpecifier]
      dsimp only
      rw [hb.1, hs.1]
      dsimp only
      rw [if_neg hb.2.1, if_neg hb.2.2.1, if_neg hb.2.2.2, if_neg hs.2.1, if_neg hs.2.2.1,
        if_neg hs.2.2.2, hcharacter]
      exact .fault _ _ _

/-- Reading on from the end of a compound directive without a delimiter. -/
theorem readDirective_close (hrest : d.rest = ')' :: rest) :
    Reads text inCompound
      ((scanSpecifier inCompound l.directives start head d.place (')' :: rest)).1.read l).result
      (scanSpecifier inCompound l.directives start head d.place (')' :: rest)).2
      (readDirective .bits64 text read inCompound (l.storedAs (l.directives + 1)) start head
        ⟨d.place, marks⟩) := by
  have hstart := h.start
  rw [readDirective, conversion]
  dsimp only
  rw [(h.cursor.byte_eq_some (by decide)).mpr ⟨rest, hrest⟩]
  cases inCompound with
  | false => exact .fault _ _ _
  | true =>
      exact endCompound_reads (s := ⟨d.place, marks⟩) h htext (h.cursor.next hrest) rfl
        (show 0 < d.place by omega)

/-- Reading on from the end of a compound directive with a delimiter. -/
theorem readDirective_bar (hrest : d.rest = '|' :: rest) :
    Reads text inCompound
      ((scanSpecifier inCompound l.directives start head d.place ('|' :: rest)).1.read l).result
      (scanSpecifier inCompound l.directives start head d.place ('|' :: rest)).2
      (readDirective .bits64 text read inCompound (l.storedAs (l.directives + 1)) start head
        ⟨d.place, marks⟩) := by
  have hbyte := (h.cursor.byte_eq_some (by decide)).mpr ⟨rest, hrest⟩
  cases inCompound with
  | false =>
      rw [readDirective, conversion]
      dsimp only
      rw [hbyte]
      exact .fault _ _ _
  | true =>
      have he : Cursor.In text ⟨d.place + 1, rest⟩ := h.cursor.next hrest
      have hfits := fits_byteLength htext
      have hdelimiter := delimiter_closes (k := l.directives + 1) he hfits
      have hdirectives : (l.storedAs (l.directives + 1)).directives = l.directives + 1 := rfl
      rw [readDirective, hdirectives, scanSpecifier_bar, conversion_bar h.cursor hfits hrest]
      generalize hx : scanDelimiter (l.directives + 1) (d.place + 1) rest = x,
        delimiter .bits64 (Text.bytes text) (l.directives + 1) (Text.bytes rest) (d.place + 1) = y
        at hdelimiter ⊢
      cases hdelimiter with
      | fault f => exact .fault _ _ _
      | @closed g p hg hp =>
          have hstart := h.start
          have hle := he.place_le hg (length_scanDelimiter hx).le
          exact endCompound_reads (s := ⟨p, marks⟩) h htext hg hp (by dsimp only at hle ⊢; omega)

omit h htext in
/-- Reading a compound specifier: its fault, or the shape that it gives an argument. -/
theorem compound_cases {result : Except Fault FormatSpec} {after : Option Cursor} {s : Scanner}
    (hbody : Reads text true result after (read true .outset (s.moveTo (s.pos + 1))))
    (hfits : Word.bits64.Fits (s.pos + 1)) :
    (∃ e s', compound .bits64 text read k s = .ok (.error e, s') ∧
      (result = .error e ∨
        ∃ f c, result = .ok f ∧ f.elementShape k = .error e ∧ after = some c)) ∨
    ∃ f t c s', compound .bits64 text read k s = .ok (.ok (.value t.stored), s') ∧
      result = .ok f ∧ f.elementShape k = .ok t ∧ t.Settled ∧ after = some c ∧ c.In text ∧
      c.place = s'.pos + 1 := by
  rw [compound, Word.add_eq hfits, Checked.ok_bind]
  generalize read true .outset (s.moveTo (s.pos + 1)) = stored at hbody ⊢
  cases hbody with
  | fault e after s => exact .inl ⟨e, _, rfl, .inl rfl⟩
  | @ended f after us used s' built storable closed =>
      obtain ⟨c, rfl, hc, hplace, hpos⟩ := closed rfl
      rw [Checked.ok_bind]
      dsimp only
      rw [elementShape_eq hpos, Checked.ok_bind]
      cases ht : f.elementShape k with
      | error e => exact .inl ⟨e, _, rfl, .inr ⟨f, c, rfl, ht, rfl⟩⟩
      | ok t =>
          obtain ⟨hall, kinds, hk, rfl⟩ := FormatSpec.elementShape_ok built ht
          exact .inr ⟨f, _, c, s', rfl, rfl, ht, (built.compound hall hk).1, rfl, hc, hplace⟩

/-- Reading on from a compound specifier. -/
theorem readDirective_compound (hread : ReadsFrom text n read) (hrest : d.rest = '(' :: rest) :
    Reads text inCompound
      ((scanSpecifier inCompound l.directives start head d.place ('(' :: rest)).1.read l).result
      (scanSpecifier inCompound l.directives start head d.place ('(' :: rest)).2
      (readDirective .bits64 text read inCompound (l.storedAs (l.directives + 1)) start head
        ⟨d.place, marks⟩) := by
  have he : Cursor.In text ⟨d.place + 1, rest⟩ := h.cursor.next hrest
  have hlength := h.length
  rw [hrest, List.length_cons] at hlength
  have hbody : Reads text true
      ((scan true 0 ⟨d.place + 1, rest⟩).directives.read .outset).result
      (scan true 0 ⟨d.place + 1, rest⟩).after (read true .outset ⟨d.place + 1, marks⟩) :=
    hread true ⟨d.place + 1, rest⟩ .outset [] marks he hlength Level.holds_outset
      (Level.bounded_outset.mono (Nat.zero_le _))
  have hfits : Word.bits64.Fits (d.place + 1) := by
    have := he.place_add
    exact (fits_byteLength htext).mono (by dsimp only at this; omega)
  have hdirectives : (l.storedAs (l.directives + 1)).directives = l.directives + 1 := rfl
  rw [readDirective, hdirectives, conversion_open h.cursor hrest, scanSpecifier_open]
  generalize hx : scan true 0 ⟨d.place + 1, rest⟩ = x at hbody ⊢
  have hshorter := x.shorter
  rcases compound_cases (k := l.directives + 1) (s := ⟨d.place, marks⟩) hbody hfits with
    ⟨e, s, hcompound, hresult | ⟨f, c, hresult, hshape, hafter⟩⟩ |
    ⟨f, t, c, s, hcompound, hresult, hshape, ht, hafter, hc, hplace⟩
  · -- a fault of the body comes before that of its missing end
    rw [hcompound, Checked.ok_bind]
    cases hafter : x.after with
    | none =>
        simp only [Directives.read, Reading.after, hresult]
        exact .fault _ _ _
    | some c =>
        simp only [Directives.read, Reading.after, hresult]
        exact .fault _ _ _
  · rw [hcompound, hafter, Checked.ok_bind]
    simp only [Directives.read, Reading.after, hresult, hshape]
    exact .fault _ _ _
  · have hshorter := hshorter c hafter
    have hle := he.place_le hc hshorter.le
    have hadd := addDirective_reads inCompound h htext hread ht hc
      (by rw [hrest]; exact hshorter.trans (Nat.lt_succ_self _)) hle hplace
    rw [hcompound, hafter, Checked.ok_bind]
    dsimp only
    rw [result_compound _ _ _ _ hresult hshape]
    exact hadd

/-- Reading on from what follows the head of a directive. -/
theorem readDirective_reads (hread : ReadsFrom text n read) :
    Reads text inCompound
      ((scanSpecifier inCompound l.directives start head d.place d.rest).1.read l).result
      (scanSpecifier inCompound l.directives start head d.place d.rest).2
      (readDirective .bits64 text read inCompound (l.storedAs (l.directives + 1)) start head
        ⟨d.place, marks⟩) := by
  by_cases hother : ∀ s rest, d.rest = s :: rest →
      specifierKinds s = none ∧ s ≠ '(' ∧ s ≠ ')' ∧ s ≠ '|'
  · exact readDirective_other h hother
  · push Not at hother
    obtain ⟨s, rest, hrest, hs⟩ := hother
    rw [hrest]
    cases hk : specifierKinds s with
    | some kinds =>
        have hlt : s.toNat < 128 := by
          by_contra hle
          rw [specifierKinds_of_le (Nat.le_of_not_lt hle)] at hk
          cases hk
        exact readDirective_value h htext hread hrest hlt hk
    | none =>
        by_cases hopen : s = '('
        · subst hopen
          exact readDirective_compound h htext hread hrest
        · by_cases hclose : s = ')'
          · subst hclose
            exact readDirective_close h htext hrest
          · obtain rfl := hs hk hopen hclose
            exact readDirective_bar h htext hrest

end Directive

/-- A head, once scanned, keeps the numbers of its level in bounds. -/
theorem headed {c d : Cursor} {head : Head} {start : ℕ} (hc : c.In text) (hd : d.In text)
    (hhead : scanHead k c = .ok (head, d)) (hl : l.Holds us)
    (hb : l.Bounded (largestNumber + start)) (hlength : c.rest.length ≤ n)
    (hstart : start < c.place) :
    Headed text n (largestNumber + start) start l us head d := by
  obtain ⟨o, rfl, hrest⟩ := exists_opening hhead
  -- what the head asks for beyond explicit numbers is paid for with its bytes
  have hplace := hc.place_eq hd hrest
  have hbytes := Cursor.byteLength_ge o.text
  have hauxiliary := o.length_auxiliary_le
  refine ⟨hl, hb, o.valid, ?_, hd, (length_scanHead hhead).trans hlength, by omega, by omega⟩
  exact ⟨o.within.1.mono (Nat.le_add_right _ _),
    fun q hq => (o.within.2 q hq).mono (Nat.le_add_right _ _)⟩

theorem readLevel_reads (htext : Text.byteLength text ≤ largestNumber) (steps : ℕ) :
    ReadsFrom text steps (readLevel .bits64 text steps) := by
  -- fewer characters are left after a directive, and in the body of a compound one
  induction steps with
  | zero => exact fun _ c _ _ _ _ hlength => absurd hlength (Nat.not_lt_zero _)
  | succ steps ih =>
      intro inCompound c l us marks hc hlength hl hb
      have hfits := fits_byteLength htext
      have hend := hc.place_add
      have hcount : l.stored.directives ≤ largestNumber + c.place := hb.directives
      rw [directives_scan, after_scan, readLevel]
      dsimp only
      rw [hc.drop_bytes, nextDirective?_eq (hend ▸ hfits), Checked.ok_bind]
      cases hnext : Cursor.nextDirective? c.place c.rest with
      | none =>
          cases inCompound with
          | true => exact .fault _ _ _
          | false => exact finish_reads hl hb (fits_largestNumber (by omega)) (by simp)
      | some q =>
          obtain ⟨start, cs⟩ := q
          obtain ⟨hin, hle⟩ := hc.nextDirective? hnext
          have hin : Cursor.In text ⟨start + 1, cs⟩ := hin.cons
          have hshorter := length_nextDirective? hnext
          rw [Option.map_some, scanFrom]
          dsimp only
          by_cases hcs : cs = []
          · subst hcs
            rw [if_pos (hin.byte_eq_none.mpr rfl)]
            exact .fault _ _ _
          · rw [if_neg fun h => hcs (hin.byte_eq_none.mp h),
              Word.add_eq (fits_largestNumber (by omega)), Checked.ok_bind]
            have hhead := head_scans (k := l.directives + 1) hin hfits
              (fits_largestNumber (by omega))
            generalize hx : scanHead (l.directives + 1) ⟨start + 1, cs⟩ = x at hhead ⊢
            dsimp only [Level.stored, Level.storedAs] at hhead ⊢
            generalize head .bits64 (Text.bytes text) (l.directives + 1) (start + 1) = y
              at hhead ⊢
            cases hhead with
            | fault f => exact .fault _ _ _
            | @found head d hd =>
                have hheaded : Headed text steps (largestNumber + start) start l us head d :=
                  headed hin hd hx hl (hb.mono (by omega)) (by dsimp only; omega)
                    (Nat.lt_succ_self _)
                exact readDirective_reads hheaded htext ih

end ByteScan

/-! ### Strings -/

theorem Text.byteLength_toList (s : String) : Text.byteLength s.toList = s.utf8ByteSize := by
  rw [← Text.length_bytes, Text.bytes, List.length_map, ← String.size_toByteArray,
    ← String.utf8Encode_toList]
  simp [Text.encode, List.utf8Encode]

/-- Reading a string of at most 2⁶³ − 1 bytes ends without a defect, with what its directives
say. -/
theorem StoredSpec.parse_eq (s : String) (indicators : List Indicator)
    (hs : s.utf8ByteSize < 2 ^ 63) (hlength : indicators.length = s.utf8ByteSize) :
    ∃ marked, StoredSpec.parse .bits64 s.toList indicators =
      .ok ((FormatString.parse s).result.map FormatSpec.stored, marked) := by
  rw [← Text.byteLength_toList] at hs hlength
  have htext : Text.byteLength s.toList ≤ largestNumber := Nat.le_of_lt_succ hs
  have hreads := ByteScan.readLevel_reads htext (Text.byteLength s.toList + 1) false ⟨0, s.toList⟩
    .outset [] indicators (Cursor.in_start _) (Nat.lt_succ_of_le (Cursor.byteLength_ge _))
    Level.holds_outset (Level.bounded_outset.mono (Nat.zero_le _))
  rw [StoredSpec.parse, Checked.demand_eq (hlength.trans (Text.length_bytes _).symm),
    Text.length_bytes, Checked.ok_bind]
  change ByteScan.Reads s.toList false ((Directives.ofText s.toList).read .outset).result _
    (ByteScan.readLevel .bits64 s.toList (Text.byteLength s.toList + 1) false .outset
      ⟨0, indicators⟩) at hreads
  simp only [FormatString.parse, FormatString.ofText]
  generalize ((Directives.ofText s.toList).read .outset).result = result,
    ByteScan.readLevel .bits64 s.toList (Text.byteLength s.toList + 1) false .outset
      ⟨0, indicators⟩ = stored at hreads ⊢
  cases hreads with
  | fault e after s => exact ⟨s.indicators, rfl⟩
  | @ended f after us used s built storable closed =>
      refine ⟨s.indicators, ?_⟩
      rw [Checked.ok_bind]
      dsimp only
      rw [ArgList.normalize_stored storable]
      rfl

/-- Two arguments follow the largest number that may be written; the text around the directives
has characters of several bytes. -/
theorem StoredSpec.parse_eq_largest :
    let s := "é %9223372036854775807$d%*s €"
    let required (count : ℕ) (kinds : Kinds) : StoredRun := ⟨count, .required, kinds, false, none⟩
    let runs := [required 9223372036854775806 .any,
      required 1 (.ofList [.bool, .integer, .char]), required 1 (.ofList [.integer]),
      required 1 .any]
    ∃ marked, StoredSpec.parse .bits64 s.toList (List.replicate 32 .none) =
      .ok (.ok ⟨2, 2, ⟨runs, 9223372036854775809⟩, [], 0⟩, marked) := by
  intro s required runs
  have hresult : (FormatString.parse s).result.map FormatSpec.stored =
      .ok ⟨2, 2, ⟨runs, 9223372036854775809⟩, [], 0⟩ := by decide +kernel
  obtain ⟨marked, hparse⟩ := StoredSpec.parse_eq s (List.replicate 32 .none) (by decide) (by decide)
  exact ⟨marked, hresult ▸ hparse⟩

end CatalogLint
