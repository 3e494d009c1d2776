import CatalogLint.ArgList.Basic

/-!
# Changing the representation of a list

`unfold`, `rotate`, `split` and `unshare` describe the same arguments by other runs.
`appendLoop` and `backtrack` do change the list: they end it.
-/
namespace CatalogLint.ArgList

/-- Writes the loop out `m` times; never less than once. -/
def unfold (l : ArgList) (m : Nat) : ArgList :=
  if m ≤ 1 then l else { l with repeated := (List.replicate m l.repeated).flatten }

/-- Delays the loop until the initial segment covers `m` arguments, not fewer than it does. -/
def rotate (l : ArgList) (m : Nat) : ArgList :=
  let missing := m - Segment.extent l.initial
  match l.repeated with
  | [] => l
  | [r] => if missing = 0 then l else { l with initial := l.initial ++ [r.withCount missing] }
  | loop =>
      let turns := missing / Segment.extent loop
      let start := missing % Segment.extent loop
      { initial := l.initial ++ (List.replicate turns loop).flatten ++ Segment.takeArgs start loop
        repeated := Segment.dropArgs start loop ++ Segment.takeArgs start loop }

/-- Makes a run of the initial segment start at position `n`, if the list reaches that far. -/
def split (l : ArgList) (n : Nat) : ArgList :=
  let l := if Segment.extent l.initial < n then l.rotate n else l
  { l with initial := Segment.takeArgs n l.initial ++ Segment.dropArgs n l.initial }

/-- Gives the argument at position `n` a run of its own in the initial segment. -/
def unshare (l : ArgList) (n : Nat) : ArgList :=
  let l := if Segment.extent l.initial ≤ n then l.rotate (n + 1) else l
  let rest := Segment.dropArgs n l.initial
  { l with
    initial := Segment.takeArgs n l.initial ++ Segment.takeArgs 1 rest ++ Segment.dropArgs 1 rest }

/-- The index of the run that starts at position `n` of the initial segment. -/
def runIndex (l : ArgList) (n : Nat) : Nat :=
  (Segment.takeArgs n l.initial).length

/-- Ends the list after one turn of the loop. -/
def appendLoop (l : ArgList) : ArgList :=
  ⟨l.initial ++ l.repeated, []⟩

/-- Ends a finite list right before its last optional argument. No list is left when every
argument is required. -/
def backtrack (l : ArgList) : Option ArgList :=
  match l.initial.reverse.dropWhile Run.isRequired with
  | [] => none
  | r :: front =>
      let kept := if r.count > 1 then r.withCount (r.count - 1) :: front else front
      some { l with initial := kept.reverse }

end CatalogLint.ArgList
