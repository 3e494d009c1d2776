import Mathlib.Data.Int.GCD
import Mathlib.Data.Nat.Periodic

/-!
# Sequences that end in a loop

A lasso reads a list once and then a loop over and over. Many lassos read the same sequence: the
loop may be written out several times, and it may start later than it has to. `lasso_injective`
says that a lasso with a shortest loop which starts as early as possible is the only such lasso
of its sequence. The elements are arbitrary here; that the loops of argument lists are brought
into that form is shown where they are normalized.
-/
namespace CatalogLint.Sequence
open Function

variable {α : Type}

/-- The loop read over and over; nothing if there is no loop. -/
def turn (v : List α) (n : ℕ) : Option α := v[n % v.length]?

/-- Everything of `u` once, then the loop `v` over and over. -/
def lasso (u v : List α) (n : ℕ) : Option α :=
  if n < u.length then u[n]? else turn v (n - u.length)

/-- No period of the loop is shorter than the loop. -/
def Shortest (v : List α) : Prop :=
  ∀ p, 0 < p → Periodic (turn v) p → v.length ≤ p

@[simp] theorem turn_nil (n : ℕ) : turn ([] : List α) n = none := rfl

theorem turn_of_lt {v : List α} {n : ℕ} (h : n < v.length) : turn v n = v[n]? := by
  rw [turn, Nat.mod_eq_of_lt h]

theorem turn_periodic (v : List α) : Periodic (turn v) v.length := by
  intro n
  simp only [turn, Nat.add_mod_right]

theorem turn_add_mul (v : List α) (n k : ℕ) : turn v (n + k * v.length) = turn v n :=
  (turn_periodic v).nat_mul k n

theorem turn_ne_none {v : List α} (h : v ≠ []) (n : ℕ) : turn v n ≠ none := by
  have hv : 0 < v.length := List.length_pos_iff.mpr h
  simpa [turn] using Nat.mod_lt n hv

theorem eq_nil_of_turn {v : List α} {n : ℕ} (h : turn v n = none) : v = [] := by
  by_contra hv
  exact turn_ne_none hv n h

theorem length_power (w : List α) (k : ℕ) :
    (List.replicate k w).flatten.length = k * w.length := by
  simp

theorem getElem?_power {w : List α} {k n : ℕ} (h : n < k * w.length) :
    (List.replicate k w).flatten[n]? = turn w n := by
  induction k generalizing n with
  | zero => simp at h
  | succ k ih =>
      rw [List.replicate_succ, List.flatten_cons]
      by_cases hn : n < w.length
      · rw [List.getElem?_append_left hn, turn_of_lt hn]
      · have hle : w.length ≤ n := Nat.le_of_not_lt hn
        rw [Nat.succ_mul] at h
        rw [List.getElem?_append_right hle, ih (by omega)]
        have := turn_periodic w (n - w.length)
        rwa [Nat.sub_add_cancel hle, eq_comm] at this

theorem turn_power {w : List α} {k : ℕ} (hk : 0 < k) :
    turn (List.replicate k w).flatten = turn w := by
  funext n
  by_cases hw : w = []
  · simp [hw, turn]
  · have hlen : 0 < k * w.length := Nat.mul_pos hk (List.length_pos_iff.mpr hw)
    rw [turn, length_power, getElem?_power (Nat.mod_lt n hlen), turn, turn, Nat.mod_mul_left_mod]

theorem power_power (s : List α) (j k : ℕ) :
    (List.replicate k (List.replicate j s).flatten).flatten =
      (List.replicate (k * j) s).flatten := by
  induction k with
  | zero => simp
  | succ k ih =>
      rw [List.replicate_succ, List.flatten_cons, ih, ← List.flatten_append,
        List.replicate_append_replicate, Nat.succ_mul, Nat.add_comm]

theorem head?_power (w : List α) {k : ℕ} (hk : 0 < k) :
    (List.replicate k w).flatten.head? = w.head? := by
  obtain ⟨k, rfl⟩ := Nat.exists_eq_add_of_lt hk
  cases w with
  | nil => simp
  | cons x w => simp [List.replicate_succ]

theorem getLast?_power (w : List α) {k : ℕ} (hk : 0 < k) :
    (List.replicate k w).flatten.getLast? = w.getLast? := by
  obtain ⟨k, rfl⟩ := Nat.exists_eq_add_of_lt hk
  rw [List.replicate_succ', List.flatten_concat]
  by_cases hw : w = []
  · simp [hw]
  · rw [List.getLast?_append_of_ne_nil _ hw]

theorem power_append_swap (x v : List α) (k : ℕ) :
    (List.replicate k (x ++ v)).flatten ++ x = x ++ (List.replicate k (v ++ x)).flatten := by
  induction k with
  | zero => simp
  | succ k ih =>
      rw [List.replicate_succ, List.flatten_cons, List.append_assoc, ih, List.replicate_succ,
        List.flatten_cons]
      simp only [List.append_assoc]

/-- A power stays a power when its beginning is moved to its end. -/
theorem eq_power_swap {x v w : List α} {k : ℕ}
    (h : x ++ v = (List.replicate k (x ++ w)).flatten) :
    v ++ x = (List.replicate k (w ++ x)).flatten := by
  apply (List.append_right_inj x).mp
  rw [← power_append_swap, ← h, List.append_assoc]

theorem turn_append_swap (v w : List α) (n : ℕ) :
    turn (v ++ w) n = turn (w ++ v) (n + w.length) := by
  by_cases hL : v.length + w.length = 0
  · obtain ⟨hv, hw⟩ : v = [] ∧ w = [] := by
      simpa [Nat.add_eq_zero_iff] using hL
    simp [hv, hw, turn]
  have hj : n % (v.length + w.length) < v.length + w.length := Nat.mod_lt n (by omega)
  simp only [turn, List.length_append, Nat.add_comm w.length v.length]
  rw [Nat.add_mod n w.length]
  generalize n % (v.length + w.length) = j at hj ⊢
  by_cases h : j < v.length
  · have hw : w.length % (v.length + w.length) = w.length := Nat.mod_eq_of_lt (by omega)
    rw [hw, Nat.mod_eq_of_lt (by omega), List.getElem?_append_left h,
      List.getElem?_append_right (by omega), Nat.add_sub_cancel]
  · have he : (j + w.length % (v.length + w.length)) % (v.length + w.length) = j - v.length := by
      rw [Nat.add_mod_mod, Nat.mod_eq_sub_mod (by omega),
        show j + w.length - (v.length + w.length) = j - v.length by omega]
      exact Nat.mod_eq_of_lt (by omega)
    rw [he, List.getElem?_append_right (by omega), List.getElem?_append_left (by omega)]

theorem lasso_append (u w v : List α) (n : ℕ) :
    lasso (u ++ w) v n = if n < u.length then u[n]? else lasso w v (n - u.length) := by
  by_cases h : n < u.length
  · rw [if_pos h, lasso, if_pos (by simp only [List.length_append]; omega),
      List.getElem?_append_left h]
  · rw [if_neg h, lasso, lasso]
    by_cases hw : n - u.length < w.length
    · rw [if_pos hw, if_pos (by simp only [List.length_append]; omega),
        List.getElem?_append_right (by omega)]
    · rw [if_neg hw, if_neg (by simp only [List.length_append]; omega), List.length_append,
        Nat.sub_add_eq]

/-- A loop may start later, once its beginning has been read. -/
theorem lasso_append_self (w v : List α) : lasso w (v ++ w) = turn (w ++ v) := by
  funext n
  by_cases h : n < w.length
  · rw [lasso, if_pos h, turn_of_lt (by simp only [List.length_append]; omega),
      List.getElem?_append_left h]
  · rw [lasso, if_neg h, turn_append_swap, Nat.sub_add_cancel (Nat.le_of_not_lt h)]

theorem lasso_congr (u : List α) {v v' w w' : List α} (h : lasso w v = lasso w' v') :
    lasso (u ++ w) v = lasso (u ++ w') v' := by
  funext n
  rw [lasso_append, lasso_append, h]

theorem lasso_nil (v : List α) : lasso [] v = turn v := by
  funext n
  simp [lasso]

/-- Whole turns may be read before the loop. -/
theorem lasso_power_append {v w v' : List α} (h : lasso w v' = turn v) (k : ℕ) :
    lasso ((List.replicate k v).flatten ++ w) v' = turn v := by
  induction k with
  | zero => simpa using h
  | succ k ih =>
      have hturn : lasso ((List.replicate k v).flatten ++ w) v' = lasso [] v := by
        rw [ih, lasso_nil]
      rw [List.replicate_succ, List.flatten_cons, List.append_assoc, lasso_congr v hturn]
      simpa using lasso_append_self v []

/-- The loop may be written once more before it starts. -/
theorem lasso_singleton (u : List α) (x : α) (n : ℕ) :
    lasso u [x] n = if n < u.length then u[n]? else some x := by
  simp [lasso, turn, Nat.mod_one]

theorem lasso_append_loop (u v : List α) : lasso (u ++ v) v = lasso u v := by
  have hturn : lasso v v = lasso [] v := by
    rw [lasso_nil]
    simpa using lasso_append_self v []
  rw [lasso_congr u hturn, List.append_nil]

theorem lasso_zero (u v : List α) : lasso u v 0 = (u ++ v).head? := by
  cases u with
  | nil => cases v <;> simp [lasso, turn]
  | cons x u => simp [lasso]

/-- There are no gaps. -/
theorem lasso_ne_none {u v : List α} {m n : ℕ} (h : lasso u v n ≠ none) (hmn : m ≤ n) :
    lasso u v m ≠ none := by
  unfold lasso at h ⊢
  split_ifs with hm
  · simpa using hm
  · rw [if_neg (by omega)] at h
    apply turn_ne_none
    rintro rfl
    exact h (turn_nil _)

/-- The first places of a turning loop hold the first elements of the loop, and no others. -/
theorem mem_take_iff_turn {v : List α} {x : α} {k : ℕ} :
    x ∈ v.take k ↔ ∃ n < k, turn v n = some x := by
  rw [List.mem_take_iff_getElem]
  constructor
  · rintro ⟨n, hn, rfl⟩
    obtain ⟨hk, hv⟩ := lt_min_iff.mp hn
    exact ⟨n, hk, by rw [turn_of_lt hv, List.getElem?_eq_getElem hv]⟩
  · rintro ⟨n, hn, hx⟩
    obtain ⟨hlt, rfl⟩ := List.getElem?_eq_some_iff.mp hx
    exact ⟨n % v.length, lt_min ((Nat.mod_le n v.length).trans_lt hn) hlt, rfl⟩

theorem mem_take_iff_lasso {u v : List α} {x : α} {k : ℕ} :
    x ∈ u.take k ++ v.take (k - u.length) ↔ ∃ n < k, lasso u v n = some x := by
  rw [List.mem_append, List.mem_take_iff_getElem, mem_take_iff_turn]
  constructor
  · rintro (⟨n, hn, rfl⟩ | ⟨n, hn, hx⟩)
    · obtain ⟨hk, hu⟩ := lt_min_iff.mp hn
      exact ⟨n, hk, by rw [lasso, if_pos hu, List.getElem?_eq_getElem hu]⟩
    · exact ⟨u.length + n, by omega, by rwa [lasso, if_neg (by omega), Nat.add_sub_cancel_left]⟩
  · rintro ⟨n, hn, hx⟩
    rw [lasso] at hx
    split_ifs at hx with hu
    · exact .inl ⟨n, lt_min hn hu, (List.getElem?_eq_some_iff.mp hx).2⟩
    · exact .inr ⟨n - u.length, by omega, hx⟩

/-- As far as the lasso is written out, and one place further. -/
theorem lasso_of_le (u w v : List α) {n : ℕ} (h : n ≤ u.length) :
    lasso (u ++ w) v n = (u ++ (w ++ v).head?.toList)[n]? := by
  rw [lasso_append]
  split_ifs with hn
  · rw [List.getElem?_append_left hn]
  · rw [List.getElem?_append_right (by omega), show n - u.length = 0 by omega]
    cases w with
    | nil => cases v <;> simp [lasso, turn]
    | cons x w => simp [lasso]

theorem periodic_turn_swap {v w : List α} {p : ℕ} (h : Periodic (turn (w ++ v)) p) :
    Periodic (turn (v ++ w)) p := by
  intro n
  rw [turn_append_swap, turn_append_swap v w n, Nat.add_right_comm]
  exact h (n + w.length)

theorem Shortest.swap {v w : List α} (h : Shortest (v ++ w)) : Shortest (w ++ v) := by
  intro p hp hper
  have := h p hp (periodic_turn_swap hper)
  simpa only [List.length_append, Nat.add_comm] using this

/-- Two periods of a sequence have a common measure that is a period too. -/
theorem periodic_gcd {β : Type} {f : ℕ → β} {p q : ℕ} (hp : Periodic f p) (hq : Periodic f q)
    (hq₀ : 0 < q) : Periodic f (p.gcd q) := by
  by_cases hlt : p.gcd q < q
  · obtain ⟨m, -, hm⟩ := Nat.exists_mul_mod_eq_gcd hlt
    intro n
    have hmul : p.gcd q + q * (p * m / q) = p * m := by
      rw [← hm]
      exact Nat.mod_add_div _ _
    calc f (n + p.gcd q) = f (n + p.gcd q + p * m / q * q) := (hq.nat_mul _ _).symm
      _ = f (n + m * p) := by
          congr 1
          rw [Nat.add_assoc, Nat.mul_comm _ q, hmul, Nat.mul_comm]
      _ = f n := hp.nat_mul m n
  · have : p.gcd q = q := Nat.le_antisymm (Nat.gcd_le_right p hq₀) (Nat.le_of_not_lt hlt)
    rwa [this]

theorem eq_power_of_periodic {v : List α} {g k : ℕ} (h : Periodic (turn v) g)
    (hk : v.length = k * g) : v = (List.replicate k (v.take g)).flatten := by
  by_cases hk₀ : k = 0
  · subst hk₀
    simpa using hk
  have hg : g ≤ v.length := by
    rw [hk]
    exact Nat.le_mul_of_pos_left g (Nat.pos_of_ne_zero hk₀)
  have ht : (v.take g).length = g := by simpa using hg
  apply List.ext_getElem?
  intro n
  by_cases hn : n < v.length
  · rw [getElem?_power (by rw [ht, ← hk]; exact hn), turn, ht]
    have hg₀ : 0 < g := Nat.pos_of_ne_zero fun h0 => by rw [h0, Nat.mul_zero] at hk; omega
    have hlt : n % g < g := Nat.mod_lt n hg₀
    rw [List.getElem?_take_of_lt hlt, ← turn_of_lt hn, ← turn_of_lt (lt_of_lt_of_le hlt hg)]
    exact (h.map_mod_nat n).symm
  · rw [List.getElem?_eq_none (by omega), List.getElem?_eq_none]
    rw [length_power, ht]
    omega

/-- A loop that is no other loop written several times has no shorter period. -/
theorem shortest_of_ne_power {v : List α}
    (h : ∀ w k, 2 ≤ k → v = (List.replicate k w).flatten → v = []) : Shortest v := by
  intro p hp hper
  by_contra hlt
  have hv : 0 < v.length := by omega
  have hg : p.gcd v.length ≤ p := Nat.gcd_le_left _ hp
  obtain ⟨k, hk⟩ := Nat.gcd_dvd_right p v.length
  rw [Nat.mul_comm] at hk
  have hk₂ : 2 ≤ k := by
    by_contra hk₂
    have : k * p.gcd v.length ≤ 1 * p.gcd v.length := Nat.mul_le_mul_right _ (by omega)
    omega
  have := h _ k hk₂ (eq_power_of_periodic (periodic_gcd hper (turn_periodic v) hv) hk)
  simp [this] at hv

theorem shortest_singleton (x : α) : Shortest [x] := by
  intro p hp _
  exact hp

/-- The loop could not have started one place earlier. -/
def Tight (u v : List α) : Prop :=
  ∀ x, u.getLast? = some x → v.getLast? ≠ some x

section Uniqueness
variable {u v u' v' : List α}

theorem turn_add_of_lasso (h : lasso u v = lasso u' v') (hle : u.length ≤ u'.length) (n : ℕ) :
    turn v (n + (u'.length - u.length)) = turn v' n := by
  have := congrFun h (n + u'.length)
  rw [lasso, if_neg (by omega), lasso, if_neg (by omega), Nat.add_sub_cancel] at this
  rwa [Nat.add_sub_assoc hle] at this

theorem length_loop_eq (hs : Shortest v) (hs' : Shortest v') (hv : v ≠ [])
    (h : lasso u v = lasso u' v') (hle : u.length ≤ u'.length) : v.length = v'.length := by
  have hshift := turn_add_of_lasso h hle
  have hv' : v' ≠ [] := by
    intro hv'
    have := hshift 0
    rw [hv', turn_nil] at this
    exact turn_ne_none hv _ this
  apply Nat.le_antisymm
  · refine hs _ (List.length_pos_iff.mpr hv') fun n => ?_
    -- read `v` late enough for the other loop to have begun
    have hd : u'.length - u.length ≤ (u'.length - u.length) * v.length :=
      Nat.le_mul_of_pos_right _ (List.length_pos_iff.mpr hv)
    generalize u'.length - u.length = d at hshift hd
    have key := turn_periodic v' (n + (d * v.length - d))
    rw [← hshift, ← hshift, show n + (d * v.length - d) + v'.length + d =
      n + v'.length + d * v.length by omega, show n + (d * v.length - d) + d =
      n + d * v.length by omega, turn_add_mul, turn_add_mul] at key
    exact key
  · refine hs' _ (List.length_pos_iff.mpr hv) fun n => ?_
    rw [← hshift, ← hshift, Nat.add_right_comm]
    exact turn_periodic v _

theorem getLast?_eq_turn (hv : v ≠ []) : v.getLast? = turn v (v.length - 1) := by
  have : 0 < v.length := List.length_pos_iff.mpr hv
  rw [List.getLast?_eq_getElem?, turn_of_lt (by omega)]

theorem length_le_of_lasso (hs : Shortest v) (hs' : Shortest v') (ht : Tight u' v') (hv : v ≠ [])
    (h : lasso u v = lasso u' v') : u'.length ≤ u.length := by
  by_contra hlt
  have hle : u.length ≤ u'.length := by omega
  have hlen := length_loop_eq hs hs' hv h hle
  have hv₀ : 0 < v.length := List.length_pos_iff.mpr hv
  have hv' : v' ≠ [] := List.length_pos_iff.mp (hlen ▸ hv₀)
  obtain ⟨x, hx⟩ := Option.ne_none_iff_exists'.mp (turn_ne_none hv (u'.length - 1 - u.length))
  apply ht x
  · rw [List.getLast?_eq_getElem?, ← hx]
    have := congrFun h (u'.length - 1)
    rw [lasso, if_neg (by omega), lasso, if_pos (by omega)] at this
    exact this.symm
  · rw [getLast?_eq_turn hv', ← turn_add_of_lasso h hle, ← hx, ← hlen]
    have := turn_periodic v (u'.length - 1 - u.length)
    rwa [show u'.length - 1 - u.length + v.length =
      v.length - 1 + (u'.length - u.length) by omega] at this

theorem lasso_nil_loop (u : List α) (n : ℕ) : lasso u [] n = u[n]? := by
  by_cases h : n < u.length
  · rw [lasso, if_pos h]
  · rw [lasso, if_neg h, turn_nil, List.getElem?_eq_none (by omega)]

theorem loop_eq_nil (h : lasso u [] = lasso u' v') : v' = [] := by
  apply eq_nil_of_turn (n := u.length)
  have := congrFun h (u.length + u'.length)
  rw [lasso_nil_loop, List.getElem?_eq_none (by omega), lasso, if_neg (by omega),
    Nat.add_sub_cancel] at this
  exact this.symm

/-- A lasso with a shortest loop that starts as early as possible is the only one of its
sequence. -/
theorem lasso_injective (hs : Shortest v) (hs' : Shortest v') (ht : Tight u v)
    (ht' : Tight u' v') (h : lasso u v = lasso u' v') : u = u' ∧ v = v' := by
  by_cases hv : v = []
  · subst hv
    obtain rfl := loop_eq_nil h
    refine ⟨List.ext_getElem? fun n => ?_, rfl⟩
    rw [← lasso_nil_loop, h, lasso_nil_loop]
  have hv' : v' ≠ [] := by
    rintro rfl
    exact hv (loop_eq_nil h.symm)
  have hlen : u.length = u'.length := Nat.le_antisymm
    (length_le_of_lasso hs' hs ht hv' h.symm) (length_le_of_lasso hs hs' ht' hv h)
  have hloop : v.length = v'.length := length_loop_eq hs hs' hv h hlen.le
  constructor
  · apply List.ext_getElem hlen
    intro n hn hn'
    have := congrFun h n
    rw [lasso, if_pos hn, lasso, if_pos hn'] at this
    simpa only [List.getElem?_eq_getElem hn, List.getElem?_eq_getElem hn', Option.some.injEq]
      using this
  · apply List.ext_getElem hloop
    intro n hn hn'
    have := turn_add_of_lasso h hlen.le n
    rw [← hlen, Nat.sub_self, Nat.add_zero, turn_of_lt hn, turn_of_lt hn'] at this
    simpa only [List.getElem?_eq_getElem hn, List.getElem?_eq_getElem hn', Option.some.injEq]
      using this

end Uniqueness

end CatalogLint.Sequence
