/-!
# Categories of argument values

A conversion accepts values of some categories and of no others. `Kinds` is a set of
categories; a set is compared, intersected and written out, and nothing more is asked of it.
An enumeration value is not a category of its own: it counts as a value of its base type.
-/
namespace CatalogLint

inductive Category where
  | bool | integer | floating | char | array | associative | range | struct | pointer
  deriving DecidableEq, Repr

namespace Category

/-- All categories, in the order in which they are listed to a reader. -/
def all : List Category :=
  [.bool, .integer, .floating, .char, .array, .associative, .range, .struct, .pointer]

def index : Category → Nat
  | .bool => 0
  | .integer => 1
  | .floating => 2
  | .char => 3
  | .array => 4
  | .associative => 5
  | .range => 6
  | .struct => 7
  | .pointer => 8

def letter : Category → Char
  | .bool => 'b'
  | .integer => 'i'
  | .floating => 'f'
  | .char => 'c'
  | .array => 'a'
  | .associative => '@'
  | .range => 'r'
  | .struct => 's'
  | .pointer => 'p'

def name : Category → String
  | .bool => "bool"
  | .integer => "integer"
  | .floating => "floating-point"
  | .char => "char"
  | .array => "array"
  | .associative => "associative array"
  | .range => "range"
  | .struct => "struct"
  | .pointer => "pointer"

theorem mem_all (c : Category) : c ∈ all := by
  cases c <;> decide

end Category

/-- A set of categories, one bit for each. -/
structure Kinds where
  bits : BitVec 9
  deriving DecidableEq, Repr

namespace Kinds

def contains (k : Kinds) (c : Category) : Bool :=
  k.bits.getLsbD c.index

instance : Membership Category Kinds :=
  ⟨fun k c => k.contains c = true⟩

instance (c : Category) (k : Kinds) : Decidable (c ∈ k) :=
  inferInstanceAs (Decidable (k.contains c = true))

def ofList (cs : List Category) : Kinds :=
  ⟨cs.foldr (fun c b => BitVec.twoPow 9 c.index ||| b) 0⟩

/-- Every category: nothing is known of the argument. -/
def any : Kinds :=
  ⟨BitVec.allOnes 9⟩

def inter (k l : Kinds) : Kinds :=
  ⟨k.bits &&& l.bits⟩

def isEmpty (k : Kinds) : Bool :=
  k.bits == 0

/-- The values whose elements are formatted one by one. -/
def sequences : Kinds :=
  ofList [.array, .range]

/-- The values whose keys and values are formatted in pairs. -/
def tables : Kinds :=
  ofList [.associative]

/-- The categories of the set, in the listing order. -/
def toList (k : Kinds) : List Category :=
  Category.all.filter k.contains

def letters (k : Kinds) : List Char :=
  k.toList.map Category.letter

def names (k : Kinds) : String :=
  "|".intercalate (k.toList.map Category.name)

theorem mem_inter (c : Category) (k l : Kinds) : c ∈ k.inter l ↔ c ∈ k ∧ c ∈ l := by
  simp [Membership.mem, contains, inter]

theorem mem_any (c : Category) : c ∈ any := by
  cases c <;> decide

end Kinds

end CatalogLint
