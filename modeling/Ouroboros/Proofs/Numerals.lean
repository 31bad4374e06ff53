/-
Decimal numerals of natural numbers: their digits, and the number that these stand for.
-/
import Mathlib
import Ouroboros.Number

namespace Ouroboros

namespace Bytes

theorem ofNat_ne_nil (n : Nat) : ofNat n ≠ [] := fun h => Nat.toDigits_ne_nil (List.map_eq_nil_iff.mp h)

theorem isDigit_ofNat {n : Nat} {b : UInt8} (h : b ∈ ofNat n) : isDigit b = true := by
  obtain ⟨c, hc, rfl⟩ := List.mem_map.mp h
  have hdigit := Nat.isDigit_of_mem_toDigits (by decide) (by decide) hc
  simp only [Char.isDigit, Bool.and_eq_true, decide_eq_true_eq, ge_iff_le] at hdigit
  have hlow : 48 ≤ c.toNat := hdigit.1
  have hhigh : c.toNat ≤ 57 := hdigit.2
  simp only [isDigit, Bool.and_eq_true, decide_eq_true_eq, UInt8.le_iff_toNat_le, UInt8.toNat_ofNat', Nat.toUInt8_eq]
  constructor
  · rw [Nat.mod_eq_of_lt (by omega)]
    exact hlow
  · rw [Nat.mod_eq_of_lt (by omega)]
    exact hhigh

end Bytes

theorem foldl_digits (w : Bytes) (n : Nat) :
    w.foldl (fun n b => 10 * n + (b.toNat - 48)) n = n * 10 ^ w.length + digitsValue w := by
  unfold digitsValue
  induction w generalizing n with
  | nil => simp
  | cons b w ih =>
    rw [List.foldl_cons, List.foldl_cons, ih, ih (10 * 0 + (b.toNat - 48)), List.length_cons, Nat.pow_succ]
    ring

theorem digitsValue_append (w v : Bytes) : digitsValue (w ++ v) = digitsValue w * 10 ^ v.length + digitsValue v := by
  rw [digitsValue, List.foldl_append, foldl_digits v]
  rfl

theorem digitsValue_zeros (k : Nat) : digitsValue (List.replicate k Bytes.zero) = 0 := by
  induction k with
  | zero => rfl
  | succ k ih =>
    rw [List.replicate_succ', digitsValue_append, ih]
    rfl

/-- the digits of a number stand for it -/
theorem digitsValue_ofNat (n : Nat) : digitsValue (Bytes.ofNat n) = n := by
  induction n using Nat.base_induction 10 (by decide) with
  | single d hd => 
    interval_cases d <;> rfl
  | digit n d hd hn ih =>
    have happend : Bytes.ofNat (10 * n + d) = Bytes.ofNat n ++ Bytes.ofNat d := by
      rw [Bytes.ofNat, ← Nat.toDigits_append_toDigits (by decide) hn hd, List.map_append]
      rfl
    have hdigit : (Bytes.ofNat d).length = 1 ∧ digitsValue (Bytes.ofNat d) = d := by
      interval_cases d <;> exact ⟨rfl, rfl⟩
    rw [happend, digitsValue_append, ih, hdigit.1, hdigit.2]
    ring

end Ouroboros
