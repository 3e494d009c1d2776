import CatalogLint.ArgList.Comparison
import CatalogLint.Proofs.ArgList.Canonical
import CatalogLint.Proofs.ArgList.Surgery

/-!
# The first argument that lists treat differently

From where both loops have started, two lists repeat together after the least common multiple of
their periods. So lists that are treated alike up to there are treated alike everywhere
(`ArgList.cellAt_eq_of_scanned`), and different lists in normal form differ before, where the
search finds the first difference and names it (`ArgList.firstDiscrepancy_exact`).
-/
namespace CatalogLint
open Sequence

/-- What there is to say of the `n`-th argument, which one list constrains by the first cell and
another one by the second; where a list has ended there is no cell. -/
inductive Detail (labels : Labels) (n : ℕ) : Option Cell → Option Cell → String → Prop
  | used (s : Shape) : Detail labels n (some ⟨.required, s⟩) none
      s!"argument {n} is used in '{labels.message}' but not in '{labels.translation}'"
  | maybeUsed (s : Shape) : Detail labels n (some ⟨.optional, s⟩) none
      s!"argument {n} may be used in '{labels.message}' but not in '{labels.translation}'"
  | usedThere (t : Shape) : Detail labels n none (some ⟨.required, t⟩)
      s!"argument {n} is used in '{labels.translation}' but not in '{labels.message}'"
  | maybeUsedThere (t : Shape) : Detail labels n none (some ⟨.optional, t⟩)
      s!"argument {n} may be used in '{labels.translation}' but not in '{labels.message}'"
  | shapes (p q : Presence) {s t : Shape} (h : s ≠ t) :
      Detail labels n (some ⟨p, s⟩) (some ⟨q, t⟩)
        (s!"argument {n} is {s.describe} in '{labels.message}'" ++
          s!" but {t.describe} in '{labels.translation}'")
  | required (s : Shape) : Detail labels n (some ⟨.required, s⟩) (some ⟨.optional, s⟩)
      s!"argument {n} is required in '{labels.message}' but optional in '{labels.translation}'"
  | requiredThere (s : Shape) : Detail labels n (some ⟨.optional, s⟩) (some ⟨.required, s⟩)
      s!"argument {n} is required in '{labels.translation}' but optional in '{labels.message}'"

namespace Discrepancy
variable (labels : Labels) (n : ℕ)

theorem text_used (side : Side) : (onlyIn side n .required).text labels =
    s!"argument {n} is used in '{labels.of side}' but not in '{labels.of side.other}'" := by
  have h : " is used in '" = " " ++ "is used" ++ " in '" := by decide
  change "argument " ++ toString n ++ " " ++ "is used" ++ " in '" ++ labels.of side ++ _ ++ _ ++ _ =
    "argument " ++ toString n ++ " is used in '" ++ labels.of side ++ _ ++ _ ++ _
  rw [h]
  simp only [String.append_assoc]

theorem text_maybeUsed (side : Side) : (onlyIn side n .optional).text labels =
    s!"argument {n} may be used in '{labels.of side}' but not in '{labels.of side.other}'" := by
  have h : " may be used in '" = " " ++ "may be used" ++ " in '" := by decide
  change "argument " ++ toString n ++ " " ++ "may be used" ++ " in '" ++ labels.of side ++
      _ ++ _ ++ _ =
    "argument " ++ toString n ++ " may be used in '" ++ labels.of side ++ _ ++ _ ++ _
  rw [h]
  simp only [String.append_assoc]

theorem text_shapes (s t : Shape) : (shapes n s t).text labels =
    s!"argument {n} is {s.describe} in '{labels.message}'" ++
      s!" but {t.describe} in '{labels.translation}'" := by
  change "argument " ++ toString n ++ " is " ++ (s.describe ++ " in '" ++ labels.message ++ "'") ++
      " but " ++ (t.describe ++ " in '" ++ labels.translation ++ "'") =
    "argument " ++ toString n ++ " is " ++ s.describe ++ " in '" ++ labels.message ++ "'" ++
      (" but " ++ t.describe ++ " in '" ++ labels.translation ++ "'")
  simp only [String.append_assoc]

end Discrepancy

namespace ArgList
variable {a b l : ArgList} {n : ℕ} {d : Discrepancy}

/-! ### One argument -/

theorem discrepancyAt_eq_none : discrepancyAt a b n = none ↔ a.cellAt n = b.cellAt n := by
  rw [discrepancyAt, cellAt, cellAt]
  cases a.argAt n with
  | none => cases b.argAt n <;> simp
  | some q =>
      cases b.argAt n with
      | none => simp
      | some r =>
          by_cases hs : q.shape = r.shape <;> by_cases hp : q.presence = r.presence <;>
            simp only [Run.cell, Option.map_some, ne_eq, hs, hp, not_true, not_false_iff, if_true,
              if_false, reduceCtorEq, Option.some.injEq, Cell.mk.injEq, and_true, and_false]

/-- A discrepancy is named after the argument and says what there is to say of it. -/
theorem detail_of_discrepancyAt (labels : Labels) (h : discrepancyAt a b n = some d) :
    d.number = n + 1 ∧ Detail labels (n + 1) (a.cellAt n) (b.cellAt n) (d.text labels) := by
  rw [discrepancyAt] at h
  rw [cellAt, cellAt]
  cases hq : a.argAt n with
  | none =>
      cases hr : b.argAt n with
      | none => simp [hq, hr] at h
      | some r =>
          obtain ⟨count, p, t⟩ := r
          simp only [hq, hr, Option.some.injEq] at h
          subst h
          refine ⟨rfl, ?_⟩
          cases p with
          | required => exact Discrepancy.text_used labels (n + 1) .translation ▸ .usedThere t
          | optional =>
              exact Discrepancy.text_maybeUsed labels (n + 1) .translation ▸ .maybeUsedThere t
  | some q =>
      obtain ⟨count, p, s⟩ := q
      cases hr : b.argAt n with
      | none =>
          simp only [hq, hr, Option.some.injEq] at h
          subst h
          refine ⟨rfl, ?_⟩
          cases p with
          | required => exact Discrepancy.text_used labels (n + 1) .message ▸ .used s
          | optional => exact Discrepancy.text_maybeUsed labels (n + 1) .message ▸ .maybeUsed s
      | some r =>
          obtain ⟨count', p', t⟩ := r
          simp only [hq, hr] at h
          split at h
          · cases h
            exact ⟨rfl, Discrepancy.text_shapes labels (n + 1) s t ▸ .shapes p p' ‹_›⟩
          · obtain rfl : s = t := not_not.mp ‹_›
            cases p <;> cases p' <;> cases h
            · exact ⟨rfl, .required s⟩
            · exact ⟨rfl, .requiredThere s⟩

/-! ### From where lists repeat together -/

/-- The number of arguments after which the list repeats; a finite list never changes any more
behind its end. -/
def period (l : ArgList) : ℕ :=
  if l.isFinite then 1 else Segment.extent l.repeated

theorem Positive.period_eq (h : l.Positive) : l.period = max (Segment.extent l.repeated) 1 := by
  rw [period]
  split
  · rename_i hfin
    rw [h.isFinite_eq.mp hfin]
    rfl
  · rename_i hfin
    have := h.isFinite_eq.not.mp hfin
    omega

/-- The number of positions after which two lists repeat together. -/
def together (a b : ArgList) : ℕ :=
  max (Segment.extent a.initial) (Segment.extent b.initial) + a.period.lcm b.period

theorem scanLimit_eq (ha : a.Positive) (hb : b.Positive) :
    scanLimit a b = min mostScanned (together a b) := by
  rw [together, ha.period_eq, hb.period_eq]
  rfl

/-- Behind its initial segment a list repeats after each multiple of its period. -/
theorem cellAt_add (hn : Segment.extent l.initial ≤ n) {p : ℕ} (hp : l.period ∣ p) :
    l.cellAt (n + p) = l.cellAt n := by
  have hle : (Segment.cells l.initial).length ≤ n := by simpa using hn
  rw [cellAt_eq_lasso, lasso, lasso, if_neg (by omega), if_neg (by omega), Nat.sub_add_comm hle]
  cases hfin : l.isFinite with
  | true =>
      rw [isFinite_iff.mp hfin]
      rfl
  | false =>
      rw [period, hfin, if_neg Bool.false_ne_true] at hp
      obtain ⟨k, rfl⟩ := hp
      rw [← Segment.length_cells, Nat.mul_comm, turn_add_mul]

/-- Lists that agree up to where they repeat together agree everywhere. -/
theorem cellAt_eq_of_together (ha : a.Positive) (hb : b.Positive)
    (h : ∀ m < together a b, a.cellAt m = b.cellAt m) (n : ℕ) : a.cellAt n = b.cellAt n := by
  have hpos : 0 < a.period.lcm b.period := by
    rw [ha.period_eq, hb.period_eq]
    exact Nat.lcm_pos (by omega) (by omega)
  induction n using Nat.strong_induction_on with
  | _ n ih =>
      by_cases hn : n < together a b
      · exact h n hn
      · -- one turn of both loops earlier, both lists say the same as here
        rw [together] at hn
        obtain ⟨m, rfl⟩ := Nat.exists_eq_add_of_le' (show a.period.lcm b.period ≤ n by omega)
        rw [cellAt_add (by omega) (Nat.dvd_lcm_left ..),
          cellAt_add (by omega) (Nat.dvd_lcm_right ..)]
        exact ih m (by omega)

/-- Different lists in normal form differ before they repeat together. -/
theorem exists_cellAt_ne (ha : a.Positive) (hb : b.Positive) (hna : a.normalize = a)
    (hnb : b.normalize = b) (hne : a ≠ b) : ∃ n < together a b, a.cellAt n ≠ b.cellAt n := by
  by_contra hno
  have hagree : ∀ m < together a b, a.cellAt m = b.cellAt m := by
    simpa using hno
  apply hne
  rw [← hna, ← hnb]
  exact normalize_ext ha hb fun n => by rw [cellAt_eq_of_together ha hb hagree n]

/-! ### The search -/

/-- A search from a position on that gives up at a position where both lists have ended. -/
def searchFrom (a b : ArgList) : ℕ → ℕ → Option Discrepancy
  | _, 0 => none
  | n, steps + 1 =>
      match a.argAt n, b.argAt n with
      | none, none => none
      | _, _ => (discrepancyAt a b n).or (searchFrom a b (n + 1) steps)

/-- Where both lists have ended there is no discrepancy any more. -/
theorem discrepancyAt_of_ended {m : ℕ} (ha : a.argAt n = none) (hb : b.argAt n = none)
    (hm : n ≤ m) : discrepancyAt a b m = none := by
  have hended {l : ArgList} (h : l.argAt n = none) : l.cellAt m = none := by
    by_contra hne
    obtain ⟨c, hc⟩ := Option.ne_none_iff_exists'.mp hne
    obtain ⟨c', hc'⟩ := exists_cellAt_of_le hc hm
    rw [cellAt, h] at hc'
    cases hc'
  rw [discrepancyAt_eq_none, hended ha, hended hb]

/-- Giving up there misses nothing. -/
theorem searchFrom_eq (a b : ArgList) (n steps : ℕ) :
    searchFrom a b n steps = (List.range' n steps).findSome? (discrepancyAt a b) := by
  induction steps generalizing n with
  | zero => rfl
  | succ steps ih =>
      rw [searchFrom]
      split
      · rename_i ha hb
        symm
        rw [List.findSome?_eq_none_iff]
        intro m hm
        exact discrepancyAt_of_ended ha hb (List.mem_range'_1.mp hm).1
      · rw [ih, List.range'_succ, List.findSome?_cons]
        cases discrepancyAt a b n <;> rfl

/-- The search finds the first position where the lists differ, if it goes so far. -/
theorem firstDiscrepancy_eq (hn : n < scanLimit a b) (hd : discrepancyAt a b n = some d)
    (hbefore : ∀ m < n, a.cellAt m = b.cellAt m) : firstDiscrepancy a b = some d := by
  obtain ⟨k, hk⟩ := Nat.exists_eq_add_of_lt hn
  rw [firstDiscrepancy, List.findSome?_eq_some_iff]
  refine ⟨List.range n, n, (List.range k).map (n + 1 + ·), ?_, hd, fun m hm => ?_⟩
  · rw [hk, Nat.add_assoc, List.range_add, List.range_succ_eq_map]
    simp [Function.comp_def, Nat.add_comm, Nat.add_left_comm]
  · exact discrepancyAt_eq_none.mpr (hbefore m (List.mem_range.mp hm))

/-- Two different lists in normal form, of which the search covers all positions up to where they
repeat together: it finds the first position where one list has ended or where they differ in
presence or shape, counts it from one and says in which way they differ there, each list under its
own label. So a failed comparison comes with this detail. -/
theorem firstDiscrepancy_exact (labels : Labels) (ha : a.WellFormed) (hb : b.WellFormed)
    (hna : a.normalize = a) (hnb : b.normalize = b) (hne : a ≠ b)
    (hbound : max (Segment.extent a.initial) (Segment.extent b.initial) +
      a.period.lcm b.period ≤ 1024) :
    ∃ n d, a.cellAt n ≠ b.cellAt n ∧ (∀ m < n, a.cellAt m = b.cellAt m) ∧
      firstDiscrepancy a b = some d ∧ searchFrom a b 0 (scanLimit a b) = some d ∧
      d.number = n + 1 ∧ Detail labels (n + 1) (a.cellAt n) (b.cellAt n) (d.text labels) ∧
      a.compare .equivalent labels b =
        some s!"{Agreement.equivalent.complaint labels} ({d.text labels})" := by
  have hlimit : scanLimit a b = together a b := by
    rw [scanLimit_eq ha.positive hb.positive]
    exact Nat.min_eq_right hbound
  have hdiffer := exists_cellAt_ne ha.positive hb.positive hna hnb hne
  have hexists : ∃ n, a.cellAt n ≠ b.cellAt n := hdiffer.imp fun _ h => h.2
  let n := Nat.find hexists
  have hn : a.cellAt n ≠ b.cellAt n := Nat.find_spec hexists
  have hbefore : ∀ m < n, a.cellAt m = b.cellAt m := fun m hm =>
    not_not.mp (Nat.find_min hexists hm)
  have hscanned : n < scanLimit a b := by
    obtain ⟨m, hm, hne⟩ := hdiffer
    exact (Nat.find_min' hexists hne).trans_lt (hlimit ▸ hm)
  obtain ⟨d, hd⟩ := Option.ne_none_iff_exists'.mp (discrepancyAt_eq_none.not.mpr hn)
  have hfirst := firstDiscrepancy_eq hscanned hd hbefore
  obtain ⟨hnumber, hdetail⟩ := detail_of_discrepancyAt labels hd
  refine ⟨n, d, hn, hbefore, hfirst, ?_, hnumber, hdetail, ?_⟩
  · rw [searchFrom_eq, ← List.range_eq_range']
    exact hfirst
  · rw [compare, agrees, if_neg (by simpa using hne), hfirst]

/-- Loops of two and of three arguments, which differ in the fourth argument first. -/
theorem firstDiscrepancy_exact_periods :
    let c : Run := ⟨1, .required, .plain (.ofList [.char])⟩
    let s : Run := ⟨1, .optional, .compound .sequences [⟨1, .required, .any⟩] []⟩
    let a : ArgList := ⟨[], [c, s]⟩
    let b : ArgList := ⟨[], [c, s, c]⟩
    let labels : Labels := ⟨"msgid", "msgstr"⟩
    a.WellFormed ∧ b.WellFormed ∧ a.normalize = a ∧ b.normalize = b ∧ a ≠ b ∧
      max (Segment.extent a.initial) (Segment.extent b.initial) + a.period.lcm b.period = 6 ∧
      ∃ d, firstDiscrepancy a b = some d ∧ d.number = 4 ∧
        Detail labels 4 (a.cellAt 3) (b.cellAt 3) (d.text labels) := by
  intro c s a b labels
  have ha : a.WellFormed := by decide
  have hb : b.WellFormed := by decide
  have hna : a.normalize = a := by decide +kernel
  have hnb : b.normalize = b := by decide +kernel
  have hne : a ≠ b := by decide
  have hbound : max (Segment.extent a.initial) (Segment.extent b.initial) +
      a.period.lcm b.period = 6 := by
    decide
  obtain ⟨n, d, hn, hbefore, hfirst, -, hnumber, hdetail, -⟩ :=
    firstDiscrepancy_exact labels ha hb hna hnb hne (by rw [hbound]; decide)
  -- the first three arguments agree, and the fourth ones do not
  have hthree : ∀ m < 3, a.cellAt m = b.cellAt m := by decide
  have hfourth : a.cellAt 3 ≠ b.cellAt 3 := by decide
  obtain rfl : n = 3 := by
    rcases Nat.lt_trichotomy n 3 with h | h | h
    · exact absurd (hthree n h) hn
    · exact h
    · exact absurd (hbefore 3 h) hfourth
  exact ⟨ha, hb, hna, hnb, hne, hbound, d, hfirst, hnumber, hdetail⟩

end ArgList

end CatalogLint
