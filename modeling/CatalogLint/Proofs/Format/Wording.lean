import CatalogLint.Proofs.Format.Grammar

/-!
# The wording of format strings

A `Wording` is a format string of one level as scanning takes it apart. It goes beyond `Format` in
what stands before a specifier: a dot need not be followed by a precision, nor a comma by a group
size, and the `%)` or `%|` that ends the body of a compound directive may carry whatever another
directive may. None of this changes the meaning: `Wording.format` is the derivation that says the
same, and every derivation has a wording (`Format.wording`).
-/
namespace CatalogLint

inductive GroupSize where
  | absent
  | digits (n : Numeral)
  | next

/-- Whatever may stand between `%` and the specifier. -/
structure Opening where
  position : WrittenPosition
  flags : List Char
  areFlags : ∀ f ∈ flags, isFlag f = true
  width : Option Amount
  /-- The precision, which a dot need not have. -/
  precision : Option (Option Amount)
  /-- The group size, and whether the separating character is an argument. -/
  separator : Option (GroupSize × Bool)

/-- The end of a compound directive, from its body on, with the delimiter if there is one. -/
structure Closing where
  opening : Opening
  delimiter : Option (List Char)

inductive Wording where
  | done
  | text (c : Char) (rest : Wording)
  | value (opening : Opening) (specifier : Specifier) (rest : Wording)
  | compound (opening : Opening) (body : Wording) (closing : Closing) (rest : Wording)

def GroupSize.text : GroupSize → List Char
  | .absent => []
  | .digits n => n.digits
  | .next => ['*']

namespace Opening

def widthText (o : Opening) : List Char :=
  (o.width.map Amount.text).getD []

def precisionText (o : Opening) : List Char :=
  (o.precision.map fun a => '.' :: (a.map Amount.text).getD []).getD []

def separatorText (o : Opening) : List Char :=
  (o.separator.map fun s => ',' :: s.1.text ++ if s.2 then ['?'] else []).getD []

def text (o : Opening) : List Char :=
  o.position.text ++ o.flags ++ o.widthText ++ o.precisionText ++ o.separatorText

def bare : Opening :=
  ⟨.absent, [], nofun, none, none, none⟩

end Opening

def Closing.text (c : Closing) : List Char :=
  '%' :: c.opening.text ++
    match c.delimiter with
    | none => [')']
    | some delimiter => '|' :: delimiter.flatMap escape ++ ['%', ')']

namespace Wording

def chars : Wording → List Char
  | .done => []
  | .text c rest => escape c ++ rest.chars
  | .value o s rest => '%' :: o.text ++ s.letter :: rest.chars
  | .compound o body closing rest =>
      '%' :: o.text ++ '(' :: body.chars ++ closing.text ++ rest.chars

/-- Nothing stands between the two characters of `%)` and `%|`. -/
def Bare : Wording → Prop
  | .done => True
  | .text _ rest => rest.Bare
  | .value _ _ rest => rest.Bare
  | .compound _ body closing rest => closing.opening.text = [] ∧ body.Bare ∧ rest.Bare

end Wording

/-! ### The meaning of a wording -/

def Numeral.zero : Numeral :=
  ⟨['0'], by simp, by simp⟩

/-- The group size in digits, if it is not an argument. -/
def GroupSize.numeral? : GroupSize → Option Numeral
  | .absent => some .zero
  | .digits n => some n
  | .next => none

namespace Opening

/-- The same with a zero for the numbers that are left out. -/
def preamble (o : Opening) : Preamble where
  position := o.position
  flags := o.flags
  areFlags := o.areFlags
  width := o.width
  precision := o.precision.map fun a => a.getD (.digits .zero)
  separator := o.separator.map fun s => ⟨s.1.numeral?, s.2⟩

def head (o : Opening) : Head where
  position := o.position.position
  spaced := o.flags.contains ' '
  width := o.width.bind Amount.reference?
  precision := o.precision.bind fun a => a.bind Amount.reference?
  groupSize := (o.separator.map fun s => s.1.numeral?.isNone).getD false
  separator := (o.separator.map fun s => s.2).getD false

theorem head_preamble (o : Opening) : o.preamble.head = o.head := by
  obtain ⟨position, flags, areFlags, width, precision, separator⟩ := o
  rcases precision with _ | _ | _ <;> cases separator <;> rfl

end Opening

def Wording.format : Wording → Format
  | .done => .done
  | .text c rest => .text c rest.format
  | .value o s rest => .value o.preamble s rest.format
  | .compound o body closing rest =>
      .compound o.preamble body.format closing.delimiter rest.format

/-! ### Derivations are wordings -/

def Preamble.opening (p : Preamble) : Opening where
  position := p.position
  flags := p.flags
  areFlags := p.areFlags
  width := p.width
  precision := p.precision.map some
  separator := p.separator.map fun s => (s.size.elim .next .digits, s.char)

theorem Preamble.text_opening (p : Preamble) : p.opening.text = p.text := by
  obtain ⟨position, flags, areFlags, width, precision, separator⟩ := p
  cases precision <;> rcases separator with _ | ⟨_ | _, _⟩ <;> rfl

theorem Preamble.preamble_opening (p : Preamble) : p.opening.preamble = p := by
  obtain ⟨position, flags, areFlags, width, precision, separator⟩ := p
  cases precision <;> rcases separator with _ | ⟨_ | _, _⟩ <;> rfl

namespace Format

def wording : Format → Wording
  | .done => .done
  | .text c rest => .text c rest.wording
  | .value p s rest => .value p.opening s rest.wording
  | .compound p body delimiter rest =>
      .compound p.opening body.wording ⟨.bare, delimiter⟩ rest.wording

theorem text_closing (delimiter : Option (List Char)) :
    Closing.text ⟨.bare, delimiter⟩ = closing delimiter := by
  cases delimiter <;> rfl

theorem chars_wording (f : Format) : f.wording.chars = f.chars := by
  induction f with
  | done => rfl
  | text c rest ih => rw [wording, Wording.chars, ih, chars]
  | value p s rest ih => rw [wording, Wording.chars, p.text_opening, ih, chars]
  | compound p body delimiter rest ihbody ih =>
      rw [wording, Wording.chars, p.text_opening, ihbody, text_closing, ih, chars]

theorem format_wording (f : Format) : f.wording.format = f := by
  induction f with
  | done => rfl
  | text c rest ih => rw [wording, Wording.format, ih]
  | value p s rest ih => rw [wording, Wording.format, p.preamble_opening, ih]
  | compound p body delimiter rest ihbody ih =>
      rw [wording, Wording.format, p.preamble_opening, ihbody, ih]

end Format

end CatalogLint
