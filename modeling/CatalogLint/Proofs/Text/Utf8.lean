import Mathlib.Data.Nat.Notation
import CatalogLint.Text.Utf8

/-!
# Text read back from UTF-8

The bytes of a text are read as that text, and nothing in them shows as damaged
(`Utf8.decode_encode`, `ofBytes_encode`).
-/
namespace CatalogLint.Text

namespace Utf8
variable {n k bits : ℕ} {low high : UInt8}

/-! ### First bytes -/

theorem begin_one : ∀ n < 0x80, begin (.ofNat n) = ([some (Char.ofNat n)], .start) := by
  decide

theorem begin_two : ∀ n < 32, 2 ≤ n →
    begin (.ofNat (n + 0xC0)) = ([], .within 1 0x80 0xBF n) := by
  decide

/-- Two first bytes of three narrow what may follow: it would be too small, or a surrogate. -/
theorem begin_three : ∀ n < 16, begin (.ofNat (n + 0xE0)) =
    ([], .within 2 (if n = 0 then 0xA0 else 0x80) (if n = 13 then 0x9F else 0xBF) n) := by
  decide

/-- Two first bytes of four narrow what may follow: it would be too small, or too large. -/
theorem begin_four : ∀ n < 5, begin (.ofNat (n + 0xF0)) =
    ([], .within 3 (if n = 0 then 0x90 else 0x80) (if n = 4 then 0x8F else 0xBF) n) := by
  decide

/-! ### The bytes that continue a character -/

theorem toNat_continuation (hk : k < 64) : (UInt8.ofNat (k + 0x80)).toNat = k + 0x80 :=
  UInt8.toNat_ofNat_of_lt' (by show k + 0x80 < 256; omega)

theorem run_more (hk : k < 64) (hlow : low.toNat ≤ k + 0x80) (hhigh : k + 0x80 ≤ high.toNat)
    (bs : List UInt8) : run (.within (n + 2) low high bits) (.ofNat (k + 0x80) :: bs) =
      run (.within (n + 1) 0x80 0xBF (64 * bits + k)) bs := by
  have hbyte := toNat_continuation hk
  rw [run, step, if_pos ⟨by rwa [UInt8.le_iff_toNat_le, hbyte],
    by rwa [UInt8.le_iff_toNat_le, hbyte]⟩]
  simp only [hbyte, Nat.add_sub_cancel, if_neg (show ¬n + 2 ≤ 1 by omega)]
  rfl

theorem run_next (hk : k < 64) (bs : List UInt8) :
    run (.within (n + 2) 0x80 0xBF bits) (.ofNat (k + 0x80) :: bs) =
      run (.within (n + 1) 0x80 0xBF (64 * bits + k)) bs := by
  have hhigh : k + 0x80 ≤ (0xBF : UInt8).toNat := show k + 0x80 ≤ 191 by omega
  exact run_more hk (Nat.le_add_left ..) hhigh bs

theorem run_last (hk : k < 64) (bs : List UInt8) :
    run (.within 1 0x80 0xBF bits) (.ofNat (k + 0x80) :: bs) =
      some (Char.ofNat (64 * bits + k)) :: run .start bs := by
  have hbyte := toNat_continuation hk
  have hlow : (0x80 : UInt8).toNat ≤ k + 0x80 := Nat.le_add_left ..
  have hhigh : k + 0x80 ≤ (0xBF : UInt8).toNat := show k + 0x80 ≤ 191 by omega
  rw [run, step, if_pos ⟨by rwa [UInt8.le_iff_toNat_le, hbyte],
    by rwa [UInt8.le_iff_toNat_le, hbyte]⟩]
  simp only [hbyte, Nat.add_sub_cancel]
  rfl

theorem run_start (b : UInt8) (bs : List UInt8) :
    run .start (b :: bs) = (begin b).1 ++ run (begin b).2 bs :=
  rfl

/-- The bytes of a character are read as that character. -/
theorem run_encodeChar (c : Char) (bs : List UInt8) :
    run .start (String.utf8EncodeChar c ++ bs) = some c :: run .start bs := by
  have hvalid : c.val.toNat < 0xD800 ∨ 0xDFFF < c.val.toNat ∧ c.val.toNat < 0x110000 := c.valid
  have hc : Char.ofNat c.val.toNat = c := Char.ofNat_toNat c
  rw [String.utf8EncodeChar]
  generalize c.val.toNat = v at hvalid hc
  have hk (n : ℕ) : n % 0x40 < 64 := Nat.mod_lt n (by decide)
  split
  · rw [List.singleton_append, run_start, begin_one v (by omega), hc]
    rfl
  split
  · rw [List.cons_append, run_start, begin_two (v / 64 % 0x20) (by omega) (by omega),
      List.nil_append, List.singleton_append, run_last (hk v),
      show 64 * (v / 64 % 0x20) + v % 0x40 = v by omega, hc]
  split
  · have hlow : (if v / 4096 % 0x10 = 0 then 0xA0 else 0x80 : UInt8).toNat ≤
        v / 64 % 0x40 + 0x80 := by
      split
      · show 0xA0 ≤ v / 64 % 0x40 + 0x80
        omega
      · exact Nat.le_add_left ..
    have hhigh : v / 64 % 0x40 + 0x80 ≤
        (if v / 4096 % 0x10 = 13 then 0x9F else 0xBF : UInt8).toNat := by
      split
      · show v / 64 % 0x40 + 0x80 ≤ 0x9F
        omega
      · show v / 64 % 0x40 + 0x80 ≤ 0xBF
        omega
    rw [List.cons_append, run_start, begin_three (v / 4096 % 0x10) (by omega), List.nil_append,
      List.cons_append, run_more (hk (v / 64)) hlow hhigh, List.singleton_append, run_last (hk v),
      show 64 * (64 * (v / 4096 % 0x10) + v / 64 % 0x40) + v % 0x40 = v by omega, hc]
  · have hlow : (if v / 262144 % 0x08 = 0 then 0x90 else 0x80 : UInt8).toNat ≤
        v / 4096 % 0x40 + 0x80 := by
      split
      · show 0x90 ≤ v / 4096 % 0x40 + 0x80
        omega
      · exact Nat.le_add_left ..
    have hhigh : v / 4096 % 0x40 + 0x80 ≤
        (if v / 262144 % 0x08 = 4 then 0x8F else 0xBF : UInt8).toNat := by
      split
      · show v / 4096 % 0x40 + 0x80 ≤ 0x8F
        omega
      · show v / 4096 % 0x40 + 0x80 ≤ 0xBF
        omega
    rw [List.cons_append, run_start, begin_four (v / 262144 % 0x08) (by omega), List.nil_append,
      List.cons_append, run_more (hk (v / 4096)) hlow hhigh, List.cons_append,
      run_next (hk (v / 64)), List.singleton_append, run_last (hk v),
      show 64 * (64 * (64 * (v / 262144 % 0x08) + v / 4096 % 0x40) + v / 64 % 0x40) + v % 0x40 = v
        by omega, hc]

/-- The bytes of a text are read as that text. -/
theorem decode_encode (cs : List Char) : decode (encode cs) = cs.map some := by
  induction cs with
  | nil => rfl
  | cons c cs ih => rw [encode, List.flatMap_cons, decode, run_encodeChar, List.map_cons, ← ih]; rfl

end Utf8

/-- Nothing is lost in the bytes of a text. -/
theorem ofBytes_encode (cs : List Char) : ofBytes (encode cs) = cs := by
  rw [ofBytes, Utf8.decode_encode, lossy, List.map_map]
  exact List.map_id cs

end CatalogLint.Text
