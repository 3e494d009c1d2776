/-!
# Arithmetic that may fail

On a machine an addition may leave the range of its numbers, a subtraction may go below zero, and
a list may have no entry at an index. `Checked` computations stop with a `Defect` at the first
such step, and wherever an invariant that is relied on does not hold. The numbers are those of a
`Word`, which may also be unbounded.
-/
namespace CatalogLint

/-- Why a computation cannot go on. -/
inductive Defect where
  | overflow
  | underflow
  | divisionByZero
  /-- No entry of a list has this index. -/
  | noEntry
  /-- A text is cut inside a character. -/
  | cutCharacter
  /-- A loop does not come to an end. -/
  | endless
  /-- A run covers no argument. -/
  | emptyRun
  /-- No category is admissible. -/
  | emptyType
  /-- An element list without a compound type, or such a type without the list. -/
  | strayElements
  /-- A segment does not have as many arguments as is stored. -/
  | wrongLength
  /-- A loop would have to start earlier than it does. -/
  | turnedBack
  /-- A finite list does not reach as far as is asked for. -/
  | pastEnd
  /-- A range of arguments ends before it starts. -/
  | reversedRange
  /-- A list that should be finite has a loop. -/
  | notFinite
  /-- An argument is not required after it has been. -/
  | notRequired
  deriving DecidableEq, Repr

abbrev Checked (α : Type) : Type :=
  Except Defect α

/-- The numbers up to the largest one, or all numbers. -/
structure Word where
  largest : Option Nat
  deriving DecidableEq, Repr

namespace Word

def unbounded : Word :=
  ⟨none⟩

def bits64 : Word :=
  ⟨some (UInt64.size - 1)⟩

def Fits (w : Word) (n : Nat) : Prop :=
  ∀ m ∈ w.largest, n ≤ m

instance (w : Word) (n : Nat) : Decidable (w.Fits n) :=
  inferInstanceAs (Decidable (∀ m ∈ w.largest, n ≤ m))

def add (w : Word) (m n : Nat) : Checked Nat :=
  if w.Fits (m + n) then .ok (m + n) else .error .overflow

def mul (w : Word) (m n : Nat) : Checked Nat :=
  if w.Fits (m * n) then .ok (m * n) else .error .overflow

section
variable {w : Word} {m n : Nat}

theorem fits_unbounded (n : Nat) : unbounded.Fits n :=
  nofun

theorem fits_zero (w : Word) : w.Fits 0 :=
  fun _ _ => Nat.zero_le _

theorem fits_bits64 : bits64.Fits n ↔ n < 18446744073709551616 := by
  simp [Fits, bits64, Nat.lt_succ_iff, UInt64.size]

theorem Fits.mono (h : w.Fits n) (hmn : m ≤ n) : w.Fits m :=
  fun k hk => Nat.le_trans hmn (h k hk)

theorem add_eq (h : w.Fits (m + n)) : w.add m n = .ok (m + n) :=
  if_pos h

theorem eq_of_add_eq {k : Nat} (h : w.add m n = .ok k) : k = m + n := by
  unfold add at h
  split at h
  · cases h
    rfl
  · cases h

theorem fits_of_add_eq {k : Nat} (h : w.add m n = .ok k) : w.Fits k := by
  unfold add at h
  split at h
  · cases h
    assumption
  · cases h

theorem mul_eq (h : w.Fits (m * n)) : w.mul m n = .ok (m * n) :=
  if_pos h

end

end Word

namespace Checked

/-- What has to hold at this point. -/
def demand (p : Prop) [Decidable p] (d : Defect) : Checked Unit :=
  if p then .ok () else .error d

def sub (m n : Nat) : Checked Nat :=
  if n ≤ m then .ok (m - n) else .error .underflow

def div (m n : Nat) : Checked Nat :=
  if n = 0 then .error .divisionByZero else .ok (m / n)

def mod (m n : Nat) : Checked Nat :=
  if n = 0 then .error .divisionByZero else .ok (m % n)

section
variable {α β : Type} {m n : Nat}

@[simp] theorem ok_bind (a : α) (f : α → Checked β) :
    ((Except.ok a : Checked α) >>= f) = f a := rfl

@[simp] theorem pure_eq (a : α) : (pure a : Checked α) = .ok a := rfl

theorem bind_eq_ok {x : Checked α} {f : α → Checked β} {b : β} :
    (x >>= f) = .ok b ↔ ∃ a, x = .ok a ∧ f a = .ok b := by
  cases x with
  | ok a => simp
  | error d => exact ⟨nofun, nofun⟩

theorem demand_eq {p : Prop} [Decidable p] (h : p) (d : Defect) : demand p d = .ok () :=
  if_pos h

@[simp] theorem demand_eq_ok {p : Prop} [Decidable p] {d : Defect} {u : Unit} :
    demand p d = .ok u ↔ p := by
  simp [demand]

theorem sub_eq (h : n ≤ m) : sub m n = .ok (m - n) :=
  if_pos h

theorem div_eq (h : 0 < n) : div m n = .ok (m / n) :=
  if_neg (Nat.ne_of_gt h)

theorem mod_eq (h : 0 < n) : mod m n = .ok (m % n) :=
  if_neg (Nat.ne_of_gt h)

end

section Entries
variable {α : Type}

def entry (xs : List α) (i : Nat) : Checked α :=
  match xs[i]? with
  | some x => .ok x
  | none => .error .noEntry

/-- Puts other entries in the place of one. -/
def replace (xs : List α) (i : Nat) (ys : List α) : Checked (List α) :=
  if i < xs.length then .ok (xs.take i ++ ys ++ xs.drop (i + 1)) else .error .noEntry

def insert (xs : List α) (i : Nat) (x : α) : Checked (List α) :=
  if i ≤ xs.length then .ok (xs.take i ++ x :: xs.drop i) else .error .noEntry

/-- The entries before an index and those from it on. -/
def cut (xs : List α) (i : Nat) : Checked (List α × List α) :=
  if i ≤ xs.length then .ok (xs.take i, xs.drop i) else .error .noEntry

variable {xs front back : List α} {x y : α} {i : Nat}

theorem entry_eq (h : xs[i]? = some x) : entry xs i = .ok x := by
  rw [entry, h]

@[simp] theorem entry_cons : entry (x :: xs) 0 = .ok x := rfl

@[simp] theorem replace_cons (ys : List α) : replace (x :: xs) 0 ys = .ok (ys ++ xs) := by
  simp [replace]

theorem entry_append (h : front.length = i) : entry (front ++ x :: back) i = .ok x := by
  subst h
  simp [entry]

theorem replace_append (h : front.length = i) (ys : List α) :
    replace (front ++ x :: back) i ys = .ok (front ++ ys ++ back) := by
  subst h
  simp [replace]

theorem insert_append (h : front.length = i) (x : α) :
    insert (front ++ back) i x = .ok (front ++ x :: back) := by
  subst h
  simp [insert]

theorem cut_append (h : front.length = i) : cut (front ++ back) i = .ok (front, back) := by
  subst h
  simp [cut]

end Entries

end Checked

end CatalogLint
