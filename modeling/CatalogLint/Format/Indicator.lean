import CatalogLint.Text.Offset

/-!
# Where the directives are

Reading a string marks some of its bytes: the `%` that starts a directive, the last byte of its
specifier, and the byte where a fault shows. From the marks, `spans` finds the outermost
directives again by counting how many are open; a fault ends all that are open.
-/
namespace CatalogLint

inductive Mark where
  | start (place : Nat)
  | stop (place : Nat)
  | fault (place : Nat)
  deriving DecidableEq, Repr

def Mark.place : Mark → Nat
  | .start n | .stop n | .fault n => n

/-- The marks on one byte. -/
structure Indicator where
  starts : Bool
  stops : Bool
  faulty : Bool
  deriving DecidableEq, Repr

namespace Indicator

def none : Indicator :=
  ⟨false, false, false⟩

def add (i : Indicator) : Mark → Indicator
  | .start _ => { i with starts := true }
  | .stop _ => { i with stops := true }
  | .fault _ => { i with faulty := true }

/-- One indicator for each of the `size` bytes of a string. -/
def ofMarks (size : Nat) (marks : List Mark) : List Indicator :=
  marks.foldl (fun is m => is.modify m.place (·.add m)) (List.replicate size none)

end Indicator

/-- A piece of a string, from the byte `start` up to `stop`. -/
structure Span where
  start : Nat
  stop : Nat
  deriving DecidableEq, Repr

namespace Span

/-- The text of the piece; none of it if the ends cut a character. -/
def text (cs : List Char) (s : Span) : List Char :=
  (Text.piece? cs s.start s.stop).getD []

/-- The outermost directives from the byte `place` on. The next `skipped` indicators belong to a
character that is already covered; `depth` directives are open, the outermost since `start`. -/
def collect (cs : List Char) (place skipped depth start : Nat) : List Indicator → List Span
  | [] => []
  | i :: is =>
      if 0 < skipped then collect cs (place + 1) (skipped - 1) depth start is
      else
        let start := if i.starts && depth = 0 then place else start
        let depth := if i.starts then depth + 1 else depth
        if i.stops && depth = 1 then ⟨start, place + 1⟩ :: collect cs (place + 1) 0 0 0 is
        else
          let depth := if i.stops then depth - 1 else depth
          if i.faulty && 0 < depth then
            let stop := Text.boundaryFrom cs (place + 1)
            ⟨start, stop⟩ :: collect cs (place + 1) (stop - (place + 1)) 0 0 is
          else collect cs (place + 1) 0 depth start is

/-- The outermost directives of a text. -/
def spans (cs : List Char) (indicators : List Indicator) : List Span :=
  collect cs 0 0 0 0 (indicators.take (Text.byteLength cs))

/-- The character at which a fault shows. -/
def faultSpan? (cs : List Char) (indicators : List Indicator) : Option Span :=
  (indicators.findIdx? Indicator.faulty).map fun n =>
    let start := Text.boundaryUpTo cs n
    match Text.dropBytes start cs with
    | some (c :: _) => ⟨start, start + c.utf8Size⟩
    | _ => ⟨start, start + 1⟩

end Span

end CatalogLint
