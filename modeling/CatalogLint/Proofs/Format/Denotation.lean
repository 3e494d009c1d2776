import CatalogLint.Proofs.Format.Level
import CatalogLint.Proofs.Format.Scan

/-!
# Format strings denote what is written in them

Reading the directives that a derivation spells keeps what the references read so far say
(`Format.Spells.read`): each directive adds its own references, and a compound one is a reference
to the values whose elements satisfy the references of its body. A regular string is therefore
accepted exactly when its references can be satisfied together, and then its list accepts the
arguments that satisfy them.
-/
namespace CatalogLint
open Use

theorem WrittenPosition.valid (q : WrittenPosition) : q.position.Valid := by
  cases q with
  | absent => trivial
  | single m => exact m.positive
  | range m _ ordered => exact ⟨m.positive, ordered⟩
  | toLast m => exact m.positive

theorem Amount.valid {a : Amount} {r : Reference} (h : a.reference? = some r) :
    r.position.Valid := by
  cases a with
  | digits => cases h
  | next =>
      cases h
      trivial
  | numbered m =>
      cases h
      exact m.positive

theorem Preamble.valid (p : Preamble) : p.head.Valid := by
  apply Head.valid_of_references p.position.valid
  · intro r hr
    obtain ⟨a, -, hr⟩ := Option.bind_eq_some_iff.mp hr
    exact Amount.valid hr
  · intro r hr
    obtain ⟨a, -, hr⟩ := Option.bind_eq_some_iff.mp hr
    exact Amount.valid hr

variable {f : Format} {d : Directives} {l : Level} {us : List Use}

theorem Use.exists_mem_number {m : Mention} {ms : List Mention} (h : m ∈ ms) (n : ℕ) :
    ∃ k, m.use k ∈ number n ms := by
  induction ms generalizing n with
  | nil => cases h
  | cons m' ms ih =>
      rw [number]
      rcases List.mem_cons.mp h with rfl | h
      · exact ⟨n, List.mem_cons_self⟩
      · obtain ⟨k, hk⟩ := ih h (max n (m'.use n).largest)
        exact ⟨k, List.mem_cons_of_mem _ hk⟩

/-- A directive for values that do not exist makes a contradiction. -/
theorem Use.not_satisfied_of_mentions {head : Head} (hv : head.Valid) {admits : Value → Prop}
    (h : ∀ x, ¬ admits x) (us : List Use) (ms : List Mention) (xs : List Value) :
    ¬ Satisfied (us ++ number (reach us) (head.mentions admits ++ ms)) xs := by
  have hm : ⟨head.position, admits⟩ ∈ head.mentions admits ++ ms := by simp [Head.mentions]
  obtain ⟨k, hk⟩ := exists_mem_number hm (reach us)
  exact not_satisfied hv.1 (List.mem_append_right us hk) h xs

/-- Numbering goes on where it stopped. -/
theorem Use.append_number (us : List Use) (ms ms' : List Mention) :
    us ++ number (reach us) (ms ++ ms') =
      us ++ number (reach us) ms ++ number (reach (us ++ number (reach us) ms)) ms' := by
  rw [number_append, reach_append, List.append_assoc]

/-- Unnumbered references remain possible up to one to all arguments that follow. -/
theorem Orderly.next {ms ms' : List Mention} (h : Orderly (ms ++ ms'))
    (hnext : us.all isBounded = true ∨ ∀ m ∈ ms ++ ms', m.position ≠ .next) :
    (us ++ number (reach us) ms).all isBounded = true ∨ ∀ m ∈ ms', m.position ≠ .next := by
  rcases hnext with hall | hnext
  · rcases h.append.2 with hms | hms
    · left
      rw [List.all_append, hall, Bool.true_and]
      exact all_isBounded_number hms _
    · exact .inr hms
  · exact .inr fun m hm => hnext m (List.mem_append_right ms hm)

/-- A directive for a settled shape is read, and the references after it are in order. -/
theorem Level.Holds.directive (hl : l.Holds us) {t : Shape} {admits : Value → Prop}
    (ht : t.Settled) (hadmits : ∀ x, x.Fits t ↔ admits x) (p : Preamble) {ms : List Mention}
    (hord : Orderly (p.head.mentions admits ++ ms))
    (hnext : us.all isBounded = true ∨ ∀ m ∈ p.head.mentions admits ++ ms, m.position ≠ .next) :
    ∃ l', l.add p.head t = some l' ∧
      l'.Holds (us ++ number (reach us) (p.head.mentions admits)) ∧
      ((us ++ number (reach us) (p.head.mentions admits)).all isBounded = true ∨
        ∀ m ∈ ms, m.position ≠ .next) := by
  have hhead : us.all isBounded = true ∨ ∀ m ∈ p.head.mentions admits, m.position ≠ .next := by
    exact hnext.imp_right fun h m hm => h m (List.mem_append_left ms hm)
  obtain ⟨l', hl'⟩ := Option.ne_none_iff_exists'.mp (hl.add_ne_none t p.valid hhead)
  exact ⟨l', hl', hl.add ht hadmits p.valid hl', hord.next hnext⟩

/-- Reading what a derivation spells, after other references of the level. -/
theorem Format.Spells.read (h : f.Spells d) (hreg : f.ElementsRegular) (hord : Orderly f.mentions)
    (hl : l.Holds us)
    (hnext : us.all isBounded = true ∨ ∀ m ∈ f.mentions, m.position ≠ .next) :
    match (d.read l).result with
    | .ok spec => spec.arguments.Built (us ++ number (reach us) f.mentions)
    | .error e => e = .conflictingUses ∧
        ∀ xs, ¬ Satisfied (us ++ number (reach us) f.mentions) xs := by
  induction h generalizing l us with
  | done =>
      rw [Format.mentions, number, List.append_nil]
      exact hl.finish
  | text _ ih => exact ih hreg hord hl hnext
  | @value p s rest d start stop _ ih =>
      obtain ⟨l', hl', hholds, hnext'⟩ := hl.directive
        (.plain (Kinds.conversion_of_specifierKinds s.known)) (fun x => x.fits_plain s.kinds) p
        hord hnext
      have hrest := ih hreg hord.append.1 hholds hnext'
      rw [← append_number] at hrest
      rw [Directives.read, hl']
      exact hrest
  | @compound p body rest delimiter e d start opening stop _ _ ihbody ih =>
      obtain ⟨hbody, hordbody, hall, hreach, hreg⟩ := hreg
      have hinner := ihbody hbody hordbody Level.holds_outset (.inl rfl)
      rw [Directives.read]
      simp only [Reading.after]
      cases hresult : (e.read .outset).result with
      | error fault =>
          -- no value has such elements, and the references of the level are to one
          rw [hresult] at hinner
          obtain ⟨rfl, hnone⟩ := hinner
          refine ⟨rfl, not_satisfied_of_mentions p.valid ?_ us rest.mentions⟩
          rintro x ⟨es, -, hes⟩
          exact hnone es hes
      | ok spec =>
          rw [hresult] at hinner
          obtain ⟨k, hk⟩ : ∃ k : Kinds, k.arity = some (reach body.uses) := by
            rcases hreach with hreach | hreach <;> rw [hreach]
            · exact ⟨.sequences, by decide⟩
            · exact ⟨.tables, by decide⟩
          obtain ⟨hsettled, hfits⟩ := hinner.compound hall hk
          obtain ⟨l', hl', hholds, hnext'⟩ := hl.directive hsettled hfits p hord hnext
          have hrest := ih hreg hord.append.1 hholds hnext'
          rw [← append_number] at hrest
          simp only [FormatSpec.elementShape_eq hinner hall hk, hl']
          exact hrest

namespace FormatString

/-- A string that the grammar derives means what is written in it: if some arguments satisfy all
of its references, it is accepted, and its list accepts just these arguments; and if none do, it
is refused as contradictory. -/
theorem parse_denotes {s : String} {f : Format} (hs : s.toList = f.chars) (hf : f.Regular) :
    ((∃ xs, f.Denotes xs) → ∃ spec, (parse s).result = .ok spec ∧
      ∀ xs, spec.arguments.Accepts xs ↔ f.Denotes xs) ∧
    ((¬ ∃ xs, f.Denotes xs) → (parse s).result = .error .conflictingUses) := by
  have hread := f.spells_ofText.read hf.1 hf.2 Level.holds_outset (.inl rfl)
  rw [parse, hs, ofText]
  cases hresult : ((Directives.ofText f.chars).read .outset).result with
  | error e =>
      rw [hresult] at hread
      obtain ⟨rfl, hnone⟩ := hread
      exact ⟨fun ⟨xs, hxs⟩ => absurd hxs (hnone xs), fun _ => rfl⟩
  | ok spec =>
      rw [hresult] at hread
      have hwf := hread.settled.wellFormed hread.requires.positive
      constructor
      · intro _
        refine ⟨_, rfl, fun xs => ?_⟩
        exact (spec.arguments.accepts_normalize hwf xs).trans (hread.accepts xs)
      · intro hnone
        obtain ⟨xs, hxs, -⟩ := hread.requires.exists_accepts_length hread.settled
        exact absurd ⟨xs, (hread.accepts xs).mp hxs⟩ hnone

/-- The third argument is made of characters, and the first one is not used at all. -/
theorem parse_denotes_compound :
    let bare : Preamble := ⟨.absent, [], nofun, none, none, none⟩
    let two : ArgNumber := ⟨⟨['2'], by simp, by simp⟩, by decide, by decide⟩
    let f : Format := .value { bare with position := .single two } ⟨'s', .any, rfl⟩
      (.text ':' (.compound bare (.value bare ⟨'c', .ofList [.char], rfl⟩ .done)
        (some [',', '%']) .done))
    f.Regular ∧ f.Denotes [.struct, .bool, .array .char] ∧
      ∃ spec, (parse "%2$s:%(%c%|,%%%)").result = .ok spec ∧
        ∀ xs, spec.arguments.Accepts xs ↔ f.Denotes xs := by
  intro bare two f
  have hregular : f.Regular := by
    exact ⟨⟨trivial, ⟨nofun, trivial⟩, rfl, .inl rfl, trivial⟩, ⟨nofun, nofun, trivial⟩⟩
  let chars : Use := ⟨1, some 1, fun x => x.category ∈ Kinds.ofList [.char]⟩
  have helement : Satisfied [chars] [.char] := by
    refine ⟨rfl, fun u hu i x hx hcovers => ?_⟩
    obtain rfl := List.mem_singleton.mp hu
    obtain rfl : i = 0 := by
      have := (List.getElem?_eq_some_iff.mp hx).1
      simpa using this
    cases hx
    exact show Category.char ∈ Kinds.ofList [.char] by decide
  have huses : f.uses = [⟨2, some 2, fun x => x.category ∈ Kinds.any⟩,
      ⟨3, some 3, Value.ElementsSatisfy [chars]⟩] := rfl
  have hdenotes : f.Denotes [.struct, .bool, .array .char] := by
    refine ⟨rfl, fun u hu i x hx hcovers => ?_⟩
    rw [huses, List.mem_pair] at hu
    rcases hu with rfl | rfl
    · obtain rfl : i = 1 := by
        have hfirst : 2 ≤ i + 1 := hcovers.1
        have hlast : i + 1 ≤ 2 := hcovers.2 2 rfl
        omega
      cases hx
      exact show Category.bool ∈ Kinds.any by decide
    · obtain rfl : i = 2 := by
        have hfirst : 3 ≤ i + 1 := hcovers.1
        have hlast : i + 1 ≤ 3 := hcovers.2 3 rfl
        omega
      cases hx
      exact ⟨[.char], rfl, helement⟩
  exact ⟨hregular, hdenotes, (parse_denotes (by decide) hregular).1 ⟨_, hdenotes⟩⟩

end FormatString

end CatalogLint
