import CatalogLint.Proofs.ArgList.Canonical

/-!
# The arguments that a list accepts

A `Value` is an argument as far as a format string can tell: its category, and for arrays, ranges
and associative arrays what their elements are. A list accepts a sequence of values when it has a
shape for each of them, each value fits its shape, and the list may end after the last one. The
values of an empty array are not described; an array stands for what all its elements are.

Only the cells of a list matter for what it accepts (`accepts_iff_follows`), so that normal forms
accept what the list accepts.
-/
namespace CatalogLint

inductive Value where
  | bool | integer | floating | char | struct | pointer
  | array (element : Value)
  | range (element : Value)
  | associative (key value : Value)
  deriving DecidableEq, Repr

def Value.category : Value → Category
  | .bool => .bool
  | .integer => .integer
  | .floating => .floating
  | .char => .char
  | .struct => .struct
  | .pointer => .pointer
  | .array _ => .array
  | .range _ => .range
  | .associative _ _ => .associative

/-- The list has a shape for every argument, which has it, and may end after the last argument.
Of an argument nothing is known but which shapes it has. -/
def ArgList.Takes (l : ArgList) (args : List (Shape → Prop)) : Prop :=
  (∀ i p, args[i]? = some p → ∃ r, l.argAt i = some r ∧ p r.shape) ∧
    ∀ r, l.argAt args.length = some r → r.presence = .optional

/-- The category of the value is admitted and, if the shape describes elements, the value has
elements and these are as described. -/
def Value.Fits : Value → Shape → Prop
  | .array e => fun s => .array ∈ s.kinds ∧ ∀ l, s.elements? = some l → l.Takes [e.Fits]
  | .range e => fun s => .range ∈ s.kinds ∧ ∀ l, s.elements? = some l → l.Takes [e.Fits]
  | .associative k v => fun s =>
      .associative ∈ s.kinds ∧ ∀ l, s.elements? = some l → l.Takes [k.Fits, v.Fits]
  | .bool => fun s => .bool ∈ s.kinds ∧ s.elements? = none
  | .integer => fun s => .integer ∈ s.kinds ∧ s.elements? = none
  | .floating => fun s => .floating ∈ s.kinds ∧ s.elements? = none
  | .char => fun s => .char ∈ s.kinds ∧ s.elements? = none
  | .struct => fun s => .struct ∈ s.kinds ∧ s.elements? = none
  | .pointer => fun s => .pointer ∈ s.kinds ∧ s.elements? = none

/-- The sequence of values satisfies the list. -/
def ArgList.Accepts (l : ArgList) (xs : List Value) : Prop :=
  l.Takes (xs.map Value.Fits)

namespace Value

/-- The arguments that stand for the elements of the value, if it has elements. -/
def elements? : Value → Option (List Value)
  | .array e | .range e => some [e]
  | .associative k v => some [k, v]
  | _ => none

theorem inductionOnElements {P : Value → Prop}
    (step : ∀ x : Value, (∀ es, x.elements? = some es → ∀ e ∈ es, P e) → P x) (x : Value) :
    P x := by
  induction x with
  | array e ih | range e ih => exact step _ (by simpa [elements?] using ih)
  | associative k v hk hv => exact step _ (by simpa [elements?] using ⟨hk, hv⟩)
  | _ => exact step _ (by simp [elements?])

theorem fits_iff (x : Value) (s : Shape) :
    x.Fits s ↔ x.category ∈ s.kinds ∧
      ∀ l, s.elements? = some l → ∃ es, x.elements? = some es ∧ l.Accepts es := by
  cases x <;> simp [Fits, category, elements?, ArgList.Accepts, Option.eq_none_iff_forall_ne_some]

theorem fits_plain (x : Value) (k : Kinds) : x.Fits (.plain k) ↔ x.category ∈ k := by
  simp [fits_iff, Shape.kinds, Shape.elements?]

theorem fits_any (x : Value) : x.Fits .any :=
  (x.fits_plain _).mpr (Kinds.mem_any _)

theorem fits_compound (x : Value) (k : Kinds) (i r : List Run) :
    x.Fits (.compound k i r) ↔ x.category ∈ k ∧
      ∃ es, x.elements? = some es ∧ ArgList.Accepts ⟨i, r⟩ es := by
  simp [fits_iff, Shape.kinds, Shape.elements?]

end Value

/-- The values follow a sequence of cells: there is a cell for each, which it fits, and the cell
after the last value may be missed. -/
def Follows (xs : List Value) (f : ℕ → Option Cell) : Prop :=
  (∀ i x, xs[i]? = some x → ∃ c, f i = some c ∧ x.Fits c.shape) ∧
    ∀ c, f xs.length = some c → c.presence = .optional

theorem ArgList.accepts_iff_follows (l : ArgList) (xs : List Value) :
    l.Accepts xs ↔ Follows xs l.cellAt := by
  simp only [Accepts, Takes, Follows, cellAt, List.getElem?_map, List.length_map,
    Option.map_eq_some_iff]
  constructor
  · rintro ⟨fits, ends⟩
    refine ⟨fun i x hx => ?_, fun c hc => ?_⟩
    · obtain ⟨r, hr, hs⟩ := fits i x.Fits ⟨x, hx, rfl⟩
      exact ⟨r.cell, ⟨r, hr, rfl⟩, hs⟩
    · obtain ⟨r, hr, rfl⟩ := hc
      exact ends r hr
  · rintro ⟨fits, ends⟩
    refine ⟨fun i p hp => ?_, fun r hr => ends r.cell ⟨r, hr, rfl⟩⟩
    obtain ⟨x, hx, rfl⟩ := hp
    obtain ⟨-, ⟨r, hr, rfl⟩, hs⟩ := fits i x hx
    exact ⟨r, hr, hs⟩

section Normalizing

theorem Follows.map {xs : List Value} {f : ℕ → Option Cell} {g : Cell → Cell}
    (hp : ∀ n c, f n = some c → (g c).presence = c.presence)
    (hs : ∀ n c x, f n = some c → x ∈ xs → (x.Fits (g c).shape ↔ x.Fits c.shape)) :
    Follows xs (fun n => (f n).map g) ↔ Follows xs f := by
  simp only [Follows, Option.map_eq_some_iff]
  constructor
  · rintro ⟨fits, ends⟩
    refine ⟨fun i x hx => ?_, fun c hc => ?_⟩
    · obtain ⟨-, ⟨c, hc, rfl⟩, h⟩ := fits i x hx
      exact ⟨c, hc, (hs i c x hc (List.mem_of_getElem? hx)).mp h⟩
    · rw [← hp _ c hc]
      exact ends _ ⟨c, hc, rfl⟩
  · rintro ⟨fits, ends⟩
    refine ⟨fun i x hx => ?_, ?_⟩
    · obtain ⟨c, hc, h⟩ := fits i x hx
      exact ⟨g c, ⟨c, hc, rfl⟩, (hs i c x hc (List.mem_of_getElem? hx)).mpr h⟩
    · rintro - ⟨c, hc, rfl⟩
      rw [hp _ c hc]
      exact ends c hc

theorem accepts_normalize_of_fits {l : ArgList} {xs : List Value} (h : l.WellFormed)
    (hx : ∀ x ∈ xs, ∀ s : Shape, (∀ m, s.elements? = some m → m.WellFormed) →
      (x.Fits s.normalize ↔ x.Fits s)) :
    l.normalize.Accepts xs ↔ l.Accepts xs := by
  rw [ArgList.accepts_iff_follows, ArgList.accepts_iff_follows,
    funext (ArgList.cellAt_normalize h.positive)]
  apply Follows.map
  · intro n c _
    rfl
  · intro n c x hc hxs
    obtain ⟨r, hr, rfl⟩ := ArgList.mem_runs_of_cellAt hc
    exact hx x hxs r.shape fun m hm => h.elements hr hm

theorem Value.fits_normalize (x : Value) (s : Shape)
    (h : ∀ m, s.elements? = some m → m.WellFormed) : x.Fits s.normalize ↔ x.Fits s := by
  induction x using Value.inductionOnElements generalizing s with
  | _ x ih =>
      rw [fits_iff, fits_iff, Shape.kinds_normalize, Shape.elements?_normalize]
      cases hs : s.elements? with
      | none => simp
      | some l =>
          have hes : ∀ es, x.elements? = some es → (l.normalize.Accepts es ↔ l.Accepts es) :=
            fun es hes => accepts_normalize_of_fits (h l hs) (ih es hes)
          simp only [Option.map_some, Option.some.injEq, forall_eq']
          exact and_congr_right fun _ => exists_congr fun es => and_congr_right fun h => hes es h

/-- The normal form accepts what the list accepts. -/
theorem ArgList.accepts_normalize {l : ArgList} (h : l.WellFormed) (xs : List Value) :
    l.normalize.Accepts xs ↔ l.Accepts xs :=
  accepts_normalize_of_fits h fun x _ s hs => x.fits_normalize s hs

end Normalizing

end CatalogLint
