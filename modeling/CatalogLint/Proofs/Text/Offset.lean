import CatalogLint.Text.Offset
import Mathlib.Data.Nat.Notation
import Mathlib.Tactic.SplitIfs

/-!
# Laws of byte offsets

A boundary of a text is the length in bytes of what stands before it (`isBoundary_iff`), and
between two boundaries there is a piece of the text (`piece?_append`). Every byte belongs to one
character (`exists_character`), from whose start up to whose end the two roundings lead.
-/
namespace CatalogLint.Text

variable {c : Char} {cs front mid rest : List Char} {n : ℕ}

theorem byteLength_append (cs ds : List Char) :
    byteLength (cs ++ ds) = byteLength cs + byteLength ds := by
  induction cs with
  | nil => rw [List.nil_append, byteLength, Nat.zero_add]
  | cons c cs ih => rw [List.cons_append, byteLength, byteLength, ih, Nat.add_assoc]

theorem byteLength_cons_pos (c : Char) (cs : List Char) : 0 < byteLength (c :: cs) := by
  have := c.utf8Size_pos
  rw [byteLength]
  omega

theorem byteLength_percent (cs : List Char) : byteLength ('%' :: cs) = byteLength cs + 1 :=
  Nat.add_comm 1 _

theorem exists_byteLength_cons (c : Char) (cs : List Char) :
    ∃ k, byteLength (c :: cs) = k + 1 ∧ c.utf8Size ≤ k + 1 ∧
      k + 1 - c.utf8Size = byteLength cs := by
  have hpos := byteLength_cons_pos c cs
  refine ⟨byteLength (c :: cs) - 1, by omega, ?_, ?_⟩
  · rw [byteLength] at hpos ⊢
    omega
  · rw [byteLength] at hpos ⊢
    omega

theorem dropBytes_append (front rest : List Char) :
    dropBytes (byteLength front) (front ++ rest) = some rest := by
  induction front with
  | nil => rw [byteLength, List.nil_append, dropBytes]
  | cons c front ih =>
      obtain ⟨k, hk, hle, hrest⟩ := exists_byteLength_cons c front
      rw [hk, List.cons_append, dropBytes, if_pos hle, hrest, ih]

theorem takeBytes_append (front rest : List Char) :
    takeBytes (byteLength front) (front ++ rest) = some front := by
  induction front with
  | nil => rw [byteLength, takeBytes]
  | cons c front ih =>
      obtain ⟨k, hk, hle, hrest⟩ := exists_byteLength_cons c front
      rw [hk, List.cons_append, takeBytes, if_pos hle, hrest, ih, Option.map_some]

theorem exists_of_dropBytes (h : dropBytes n cs = some rest) :
    ∃ front, cs = front ++ rest ∧ n = byteLength front := by
  fun_induction dropBytes n cs with
  | case1 cs =>
      cases h
      exact ⟨[], rfl, rfl⟩
  | case2 => cases h
  | case3 n c cs hle ih =>
      obtain ⟨front, rfl, hn⟩ := ih h
      exact ⟨c :: front, rfl, by rw [byteLength]; omega⟩
  | case4 => cases h

theorem isBoundary_iff : isBoundary cs n = true ↔
    ∃ front rest, cs = front ++ rest ∧ n = byteLength front := by
  constructor
  · intro h
    obtain ⟨rest, hrest⟩ := Option.isSome_iff_exists.mp h
    obtain ⟨front, hfront⟩ := exists_of_dropBytes hrest
    exact ⟨front, rest, hfront⟩
  · rintro ⟨front, rest, rfl, rfl⟩
    rw [isBoundary, dropBytes_append]
    rfl

theorem isBoundary_append (front rest : List Char) :
    isBoundary (front ++ rest) (byteLength front) = true :=
  isBoundary_iff.mpr ⟨front, rest, rfl, rfl⟩

theorem le_byteLength_of_isBoundary (h : isBoundary cs n = true) : n ≤ byteLength cs := by
  obtain ⟨front, rest, rfl, rfl⟩ := isBoundary_iff.mp h
  rw [byteLength_append]
  exact Nat.le_add_right _ _

/-- Two boundaries in their order cut the text in three. -/
theorem exists_pieces {m : ℕ} (hm : isBoundary cs m = true) (hn : isBoundary cs n = true)
    (h : m ≤ n) : ∃ front mid rest, cs = front ++ (mid ++ rest) ∧ m = byteLength front ∧
      n = byteLength front + byteLength mid := by
  obtain ⟨front, rest, rfl, rfl⟩ := isBoundary_iff.mp hm
  obtain ⟨front', rest', heq, rfl⟩ := isBoundary_iff.mp hn
  rcases List.append_eq_append_iff.mp heq with ⟨mid, rfl, rfl⟩ | ⟨mid, rfl, rfl⟩
  · exact ⟨front, mid, rest', rfl, rfl, byteLength_append front mid⟩
  · rw [byteLength_append] at h
    cases mid with
    | nil => exact ⟨front', [], rest, by simp, by simp, by simp [byteLength]⟩
    | cons c mid =>
        have := byteLength_cons_pos c mid
        omega

/-- A boundary of a text lies in the second part of it, if it is not before that part. -/
theorem exists_append_of_isBoundary (hn : isBoundary (front ++ rest) n = true)
    (h : byteLength front ≤ n) :
    ∃ gap after, rest = gap ++ after ∧ n = byteLength front + byteLength gap := by
  obtain ⟨front', gap, after, heq, hfront, rfl⟩ :=
    exists_pieces (isBoundary_append front rest) hn h
  have hdrop := dropBytes_append front rest
  rw [heq, hfront, dropBytes_append, Option.some_inj] at hdrop
  exact ⟨gap, after, hdrop.symm, by rw [hfront]⟩

theorem piece?_append (front mid rest : List Char) :
    piece? (front ++ (mid ++ rest)) (byteLength front) (byteLength front + byteLength mid) =
      some mid := by
  rw [piece?, if_pos (Nat.le_add_right _ _), dropBytes_append, Option.bind_some,
    Nat.add_sub_cancel_left, takeBytes_append]

theorem charsBefore?_append (front rest : List Char) :
    charsBefore? (front ++ rest) (byteLength front) = some front.length := by
  rw [charsBefore?, takeBytes_append, Option.map_some]

/-! ### Rounding -/

/-- Every byte belongs to a character. -/
theorem exists_character (h : n < byteLength cs) : ∃ front c rest, cs = front ++ c :: rest ∧
    byteLength front ≤ n ∧ n < byteLength front + c.utf8Size := by
  induction cs generalizing n with
  | nil => exact absurd h (Nat.not_lt_zero n)
  | cons d cs ih =>
      rcases Nat.lt_or_ge n d.utf8Size with hlt | hge
      · exact ⟨[], d, cs, rfl, Nat.zero_le n, by rwa [byteLength, Nat.zero_add]⟩
      · rw [byteLength] at h
        obtain ⟨front, c, rest, rfl, hle, hlt⟩ := ih (n := n - d.utf8Size) (by omega)
        exact ⟨d :: front, c, rest, rfl, by rw [byteLength]; omega, by rw [byteLength]; omega⟩

/-- Within a character its end is the next boundary. -/
theorem boundaryFrom_append (hlt : byteLength front < n) (hle : n ≤ byteLength front + c.utf8Size) :
    boundaryFrom (front ++ c :: rest) n = byteLength front + c.utf8Size := by
  induction front generalizing n with
  | nil =>
      rw [byteLength] at hlt hle ⊢
      rw [List.nil_append, boundaryFrom, if_neg (by omega), if_pos (by omega), Nat.zero_add]
  | cons d front ih =>
      rw [byteLength] at hlt hle
      rw [List.cons_append, boundaryFrom, if_neg (by omega)]
      split_ifs with hsmall
      · omega
      · rw [ih (by omega) (by omega), byteLength, Nat.add_assoc]

/-- Within a character its start is the boundary before. -/
theorem boundaryUpTo_append (hle : byteLength front ≤ n) (hlt : n < byteLength front + c.utf8Size) :
    boundaryUpTo (front ++ c :: rest) n = byteLength front := by
  induction front generalizing n with
  | nil =>
      rw [byteLength] at hlt
      rw [List.nil_append, boundaryUpTo, if_pos (by omega), byteLength]
  | cons d front ih =>
      rw [byteLength] at hlt hle
      rw [List.cons_append, boundaryUpTo, if_neg (by omega), ih (by omega) (by omega), byteLength]

theorem boundaryFrom_zero (cs : List Char) : boundaryFrom cs 0 = 0 := by
  cases cs with
  | nil => rfl
  | cons c cs => rw [boundaryFrom, if_pos rfl]

/-- The next boundary of a place in the text is one, and is not before the place. -/
theorem boundaryFrom_spec (h : n ≤ byteLength cs) :
    n ≤ boundaryFrom cs n ∧ isBoundary cs (boundaryFrom cs n) = true := by
  cases n with
  | zero =>
      rw [boundaryFrom_zero]
      exact ⟨Nat.le_refl 0, isBoundary_append [] cs⟩
  | succ n =>
      obtain ⟨front, c, rest, rfl, hle, hlt⟩ := exists_character (show n < byteLength cs from h)
      rw [boundaryFrom_append (by omega) (by omega)]
      constructor
      · omega
      · have := isBoundary_append (front ++ [c]) rest
        rwa [List.append_assoc, byteLength_append, byteLength, byteLength, Nat.add_zero] at this

end CatalogLint.Text
