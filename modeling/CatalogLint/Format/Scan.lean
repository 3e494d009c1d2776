import CatalogLint.Format.Directive
import CatalogLint.Text.Offset

/-!
# Scanning format strings

From the characters of a string to its directives. Text outside directives is skipped, `%%` is
text. The end of a compound directive, `%)` or `%|` and a delimiter, is read like a directive: it
may carry a position, flags and the like, which then mean nothing.
-/
namespace CatalogLint

/-- What is still to be read, and at which byte offset it starts. -/
structure Cursor where
  place : Nat
  rest : List Char
  deriving DecidableEq, Repr

namespace Cursor

def skipWhile (p : Char → Bool) (c : Cursor) : Cursor :=
  ⟨c.place + Text.byteLength (c.rest.takeWhile p), c.rest.dropWhile p⟩

/-- The digits ahead. -/
def digits (c : Cursor) : List Char :=
  c.rest.takeWhile Char.isDigit

def skipDigits (c : Cursor) : Cursor :=
  c.skipWhile Char.isDigit

/-- The place of what comes next, or of the last byte when nothing does. -/
def placeOrLast (c : Cursor) : Nat :=
  if c.rest.isEmpty then c.place - 1 else c.place

theorem length_skipWhile (p : Char → Bool) (c : Cursor) :
    (c.skipWhile p).rest.length ≤ c.rest.length := by
  simp only [skipWhile]
  induction c.rest with
  | nil => simp
  | cons d ds ih =>
      rw [List.dropWhile_cons]
      split
      · simp only [List.length_cons]
        omega
      · exact Nat.le_refl _

end Cursor

/-- A fault and where it shows. -/
structure Failure where
  fault : Fault
  place : Nat
  deriving DecidableEq, Repr

def decimal (digits : List Char) : Nat :=
  digits.foldl (fun n d => 10 * n + (d.toNat - '0'.toNat)) 0

/-- Argument numbers stay well below the 64-bit limit, so that one more can follow. -/
def largestNumber : Nat := (UInt64.size - 1) / 2

/-- Checks an explicit argument number; a fault shows at the `$` after it. -/
def checkNumber (use : NumberUse) (directive place m : Nat) : Except Failure Nat :=
  if m = 0 then .error ⟨.numberZero use directive, place⟩
  else if m > largestNumber then .error ⟨.numberTooLarge directive, place⟩
  else .ok m

/-- Digits without a `$` after them are no position but a flag or a width. -/
def scanPosition (directive : Nat) (c : Cursor) : Except Failure (Position × Cursor) :=
  let check := checkNumber .conversion directive
  let d := c.skipDigits
  let m := decimal c.digits
  if c.digits.isEmpty then .ok (.next, c)
  else
    match d.rest with
    | '$' :: rest =>
        (check d.place m).map fun m => (.single m, ⟨d.place + 1, rest⟩)
    | ':' :: '$' :: rest =>
        (check (d.place + 1) m).map fun m => (.toLast m, ⟨d.place + 2, rest⟩)
    | ':' :: rest =>
        let e : Cursor := ⟨d.place + 1, rest⟩
        let f := e.skipDigits
        if e.digits.isEmpty then .ok (.next, c)
        else
          match f.rest with
          | '$' :: rest =>
              match check f.place (decimal e.digits), check f.place m with
              | .error g, _ | .ok _, .error g => .error g
              | .ok n, .ok m =>
                  if m > n then .error ⟨.rangeReversed directive, f.place⟩
                  else .ok (.range m n, ⟨f.place + 1, rest⟩)
          | _ => .ok (.next, c)
    | _ => .ok (.next, c)

def isFlag (c : Char) : Bool :=
  [' ', '+', '-', '#', '0', '='].contains c

/-- A width, or a precision after its dot. A number without a `$` is left to be read. -/
def scanWidth (use : NumberUse) (directive : Nat) (c : Cursor) :
    Except Failure (Option Reference × Cursor) :=
  if !c.digits.isEmpty then .ok (none, c.skipDigits)
  else
    match c.rest with
    | '*' :: rest =>
        let d : Cursor := ⟨c.place + 1, rest⟩
        let e := d.skipDigits
        if d.digits.isEmpty then .ok (some .next, d)
        else
          match e.rest with
          | '$' :: rest =>
              (checkNumber use directive e.place (decimal d.digits)).map fun m =>
                (some (.numbered m), ⟨e.place + 1, rest⟩)
          | _ => .ok (some .next, d)
    | _ => .ok (none, c)

def scanPrecision (directive : Nat) (c : Cursor) : Except Failure (Option Reference × Cursor) :=
  match c.rest with
  | '.' :: rest => scanWidth .precision directive ⟨c.place + 1, rest⟩
  | _ => .ok (none, c)

/-- Are the group size and the separating character arguments? -/
def scanSeparator (c : Cursor) : (Bool × Bool) × Cursor :=
  match c.rest with
  | ',' :: rest =>
      let d : Cursor := ⟨c.place + 1, rest⟩
      let (groupSize, e) : Bool × Cursor :=
        if !d.digits.isEmpty then (false, d.skipDigits)
        else
          match d.rest with
          | '*' :: rest => (true, ⟨d.place + 1, rest⟩)
          | _ => (false, d)
      match e.rest with
      | '?' :: rest => ((groupSize, true), ⟨e.place + 1, rest⟩)
      | _ => ((groupSize, false), e)
  | _ => ((false, false), c)

/-- Everything between `%` and the specifier. -/
def scanHead (directive : Nat) (c : Cursor) : Except Failure (Head × Cursor) :=
  match scanPosition directive c with
  | .error f => .error f
  | .ok (position, c) =>
      let spaced := (c.rest.takeWhile isFlag).contains ' '
      match scanWidth .width directive (c.skipWhile isFlag) with
      | .error f => .error f
      | .ok (width, c) =>
          match scanPrecision directive c with
          | .error f => .error f
          | .ok (precision, c) =>
              let ((groupSize, separator), c) := scanSeparator c
              .ok (⟨position, spaced, width, precision, groupSize, separator⟩, c)

/-- The next directive: the place of its `%`, and what follows that. -/
def Cursor.nextDirective? : Nat → List Char → Option (Nat × List Char)
  | _, [] => none
  | n, '%' :: '%' :: cs => Cursor.nextDirective? (n + 2) cs
  | n, '%' :: cs => some (n, cs)
  | n, c :: cs => Cursor.nextDirective? (n + c.utf8Size) cs

/-- Skips the delimiter of a compound directive and the `%)` after it. -/
def scanDelimiter (directive : Nat) : Nat → List Char → Except Failure Cursor
  | n, [] => .error ⟨.unfinishedDelimiter, n - 1⟩
  | n, ['%'] => .error ⟨.unfinishedDelimiter, n⟩
  | n, '%' :: '%' :: cs => scanDelimiter directive (n + 2) cs
  | n, '%' :: ')' :: cs => .ok ⟨n + 2, cs⟩
  | n, '%' :: _ :: _ => .error ⟨.directiveInDelimiter directive, n + 1⟩
  | n, c :: cs => scanDelimiter directive (n + c.utf8Size) cs

section Lengths

theorem Cursor.length_skipDigits (c : Cursor) : c.skipDigits.rest.length ≤ c.rest.length :=
  c.length_skipWhile Char.isDigit

theorem length_scanPosition {directive : Nat} {c d : Cursor} {p : Position}
    (h : scanPosition directive c = .ok (p, d)) : d.rest.length ≤ c.rest.length := by
  have hc := c.length_skipDigits
  simp only [scanPosition, Except.map] at h
  repeat' split at h
  all_goals grind [Cursor.length_skipDigits]

theorem length_scanWidth {use : NumberUse} {directive : Nat} {c d : Cursor} {w : Option Reference}
    (h : scanWidth use directive c = .ok (w, d)) : d.rest.length ≤ c.rest.length := by
  have hc := c.length_skipDigits
  simp only [scanWidth, Except.map] at h
  repeat' split at h
  all_goals grind [Cursor.length_skipDigits]

theorem length_scanPrecision {directive : Nat} {c d : Cursor} {w : Option Reference}
    (h : scanPrecision directive c = .ok (w, d)) : d.rest.length ≤ c.rest.length := by
  simp only [scanPrecision] at h
  split at h
  · have := length_scanWidth h
    grind
  · grind

theorem length_scanSeparator (c : Cursor) : (scanSeparator c).2.rest.length ≤ c.rest.length := by
  simp only [scanSeparator]
  repeat' split
  all_goals grind [Cursor.length_skipDigits]

theorem length_scanHead {directive : Nat} {c d : Cursor} {hd : Head}
    (h : scanHead directive c = .ok (hd, d)) : d.rest.length ≤ c.rest.length := by
  simp only [scanHead] at h
  split at h
  · cases h
  · rename_i p c₁ h₁
    split at h
    · cases h
    · rename_i w c₂ h₂
      split at h
      · cases h
      · rename_i q c₃ h₃
        have := length_scanPosition h₁
        have := length_scanWidth h₂
        have := length_scanPrecision h₃
        have := length_scanSeparator c₃
        have := c₁.length_skipWhile isFlag
        cases h
        omega

theorem length_nextDirective? {n m : Nat} {cs ds : List Char}
    (h : Cursor.nextDirective? n cs = some (m, ds)) : ds.length < cs.length := by
  fun_induction Cursor.nextDirective? n cs <;> grind

theorem length_scanDelimiter {directive n : Nat} {cs : List Char} {d : Cursor}
    (h : scanDelimiter directive n cs = .ok d) : d.rest.length < cs.length := by
  fun_induction scanDelimiter directive n cs <;> grind

end Lengths

/-- The directives of a level, and what follows the end of the level if it is closed: less than
the `n` characters that were there before it. -/
structure Scanned (n : Nat) where
  directives : Directives
  after : Option Cursor
  shorter : ∀ d ∈ after, d.rest.length < n

def Scanned.stop {n : Nat} (directives : Directives) : Scanned n :=
  ⟨directives, none, nofun⟩

/-- The directives from the cursor on, at the outermost level or inside a compound directive;
`count` of them lie before it on the same level. -/
def scan (inCompound : Bool) (count : Nat) (c : Cursor) : Scanned c.rest.length :=
  match h₁ : Cursor.nextDirective? c.place c.rest with
  | none => .stop (if inCompound then .unclosed else .done)
  | some (start, cs) =>
      match h₂ : scanHead (count + 1) ⟨start + 1, cs⟩ with
      | .error f => .stop (.faulty start f.fault f.place)
      | .ok (head, d) =>
          match h₃ : d.rest with
          | [] => .stop (.faulty start .unfinishedDirective (d.place - 1))
          | s :: rest =>
              let e : Cursor := ⟨d.place + s.utf8Size, rest⟩
              have he : e.rest.length < c.rest.length := by
                have := length_nextDirective? h₁
                have := length_scanHead h₂
                simp only [h₃, List.length_cons] at this
                simp only [e]
                omega
              match specifierKinds s with
              | some kinds =>
                  let r := scan inCompound (count + 1) e
                  ⟨.value start head kinds e.place r.directives, r.after,
                    fun f hf => Nat.lt_trans (r.shorter f hf) he⟩
              | none =>
                  if s = '(' then
                    let body := scan true 0 e
                    match h₄ : body.after with
                    | none => .stop (.broken start e.placeOrLast body.directives)
                    | some f =>
                        have hf : f.rest.length < c.rest.length :=
                          Nat.lt_trans (body.shorter f h₄) he
                        let r := scan inCompound (count + 1) f
                        ⟨.compound start head e.placeOrLast body.directives f.place r.directives,
                          r.after, fun g hg => Nat.lt_trans (r.shorter g hg) hf⟩
                  else if s = ')' then
                    if inCompound then ⟨.done, some e, by simpa using he⟩
                    else .stop (.faulty start .unmatchedClose d.place)
                  else if s = '|' then
                    if inCompound then
                      match h₅ : scanDelimiter (count + 1) e.place e.rest with
                      | .error f => .stop (.faulty start f.fault f.place)
                      | .ok f =>
                          ⟨.done, some f, by
                            simpa using Nat.lt_trans (length_scanDelimiter h₅) he⟩
                    else .stop (.faulty start .barOutsideCompound d.place)
                  else .stop (.faulty start (.unknownSpecifier (count + 1) s) d.place)
  termination_by c.rest.length

/-- The directives of a string. -/
def Directives.ofText (cs : List Char) : Directives :=
  (scan false 0 ⟨0, cs⟩).directives

end CatalogLint
