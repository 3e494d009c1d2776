import CatalogLint.Text.Split

/-!
# Laws of splitting

A list whose first part has a property that what follows it does not start with falls into these
two parts. Parts with an element between any two of them are the first part and the others, each
behind that element. Digits are read back as the number that they are of.
-/
namespace CatalogLint

section Front
variable {α : Type} {p : α → Bool} {front rest : List α}

theorem takeWhile_of_head? (h : ∀ a ∈ rest.head?, p a = false) : rest.takeWhile p = [] := by
  cases rest with
  | nil => rfl
  | cons a rest => simp [h a rfl]

theorem dropWhile_of_head? (h : ∀ a ∈ rest.head?, p a = false) : rest.dropWhile p = rest := by
  cases rest with
  | nil => rfl
  | cons a rest => simp [h a rfl]

theorem takeWhile_append (hfront : ∀ a ∈ front, p a = true) (h : ∀ a ∈ rest.head?, p a = false) :
    (front ++ rest).takeWhile p = front := by
  rw [List.takeWhile_append_of_pos hfront, takeWhile_of_head? h, List.append_nil]

theorem dropWhile_append (hfront : ∀ a ∈ front, p a = true) (h : ∀ a ∈ rest.head?, p a = false) :
    (front ++ rest).dropWhile p = rest := by
  rw [List.dropWhile_append_of_pos hfront, dropWhile_of_head? h]

/-- Only one front part has the property up to where it ends. -/
theorem append_inj_of_head? {front' rest' : List α} (hfront : ∀ a ∈ front, p a = true)
    (h : ∀ a ∈ rest.head?, p a = false) (hfront' : ∀ a ∈ front', p a = true)
    (h' : ∀ a ∈ rest'.head?, p a = false) (heq : front ++ rest = front' ++ rest') :
    front = front' ∧ rest = rest' := by
  have htake := congrArg (List.takeWhile p) heq
  have hdrop := congrArg (List.dropWhile p) heq
  rw [takeWhile_append hfront h, takeWhile_append hfront' h'] at htake
  rw [dropWhile_append hfront h, dropWhile_append hfront' h'] at hdrop
  exact ⟨htake, hdrop⟩

end Front

theorem intercalate_cons {α : Type} (a : α) (part : List α) (more : List (List α)) :
    [a].intercalate (part :: more) = part ++ more.flatMap (a :: ·) := by
  induction more generalizing part with
  | nil => simp
  | cons next more ih =>
      rw [List.intercalate_cons_cons, ih, List.flatMap_cons, List.append_assoc]
      rfl

theorem toDigits_injective : Function.Injective (Nat.toDigits 10) :=
  Function.LeftInverse.injective (g := (Nat.ofDigitChars 10 · 0)) fun _ =>
    Nat.ofDigitChars_ten_toDigits

end CatalogLint
