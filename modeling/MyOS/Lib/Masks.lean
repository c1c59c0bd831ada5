import Mathlib.Data.Nat.Bitwise

/-!
# Masks

What is left of a word where the bits below one are masked out, or those from there on.
-/

namespace Mask

variable {w k : ℕ} {mask : BitVec w}

theorem and_high (hmask : ∀ i < w, mask.getLsbD i = decide (k ≤ i)) (x : BitVec w) :
    x &&& mask = x >>> k <<< k := by
  refine BitVec.eq_of_getLsbD_eq fun i hi => ?_
  rw [BitVec.getLsbD_and, hmask i hi, BitVec.getLsbD_shiftLeft, BitVec.getLsbD_ushiftRight]
  by_cases h : k ≤ i
  · have hi' : k + (i - k) = i := by omega
    rw [hi', decide_eq_true h, decide_eq_true hi, decide_eq_false (Nat.not_lt.2 h)]
    simp
  · rw [decide_eq_false h, decide_eq_true (Nat.not_le.1 h)]
    simp

theorem toNat_and_high (hmask : ∀ i < w, mask.getLsbD i = decide (k ≤ i)) (x : BitVec w) :
    (x &&& mask).toNat = x.toNat / 2 ^ k * 2 ^ k := by
  rw [and_high hmask, BitVec.toNat_shiftLeft, BitVec.toNat_ushiftRight, Nat.shiftRight_eq_div_pow,
    Nat.shiftLeft_eq]
  exact Nat.mod_eq_of_lt (Nat.lt_of_le_of_lt (Nat.div_mul_le_self _ _) x.isLt)

theorem toNat_and_low (hmask : mask.toNat = 2 ^ k - 1) (x : BitVec w) :
    (x &&& mask).toNat = x.toNat % 2 ^ k := by
  rw [BitVec.toNat_and, hmask]
  exact Nat.and_two_pow_sub_one_eq_mod x.toNat k

end Mask
