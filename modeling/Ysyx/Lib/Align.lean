import Mathlib.Data.BitVec
import Mathlib.Tactic

/-! Machine words as numbers: offsets that do not wrap, and rounding by masks, where clearing the
low bits rounds down to a power of two. -/

namespace Ysyx

variable {w k : ℕ}

theorem toNat_add_ofNat {a : BitVec w} (h : a.toNat + k < 2 ^ w) :
    (a + BitVec.ofNat w k).toNat = a.toNat + k := by
  rw [BitVec.toNat_add, BitVec.toNat_ofNat, Nat.add_mod_mod, Nat.mod_eq_of_lt h]

theorem toNat_and_not_mask (a : BitVec w) :
    (a &&& ~~~(BitVec.ofNat w (2 ^ k - 1))).toNat = a.toNat / 2 ^ k * 2 ^ k := by
  apply Nat.eq_of_testBit_eq
  intro i
  rw [BitVec.testBit_toNat, BitVec.getLsbD_and, BitVec.getLsbD_not, BitVec.getLsbD_ofNat,
    Nat.testBit_two_pow_sub_one, Nat.testBit_mul_two_pow, Nat.testBit_div_two_pow,
    BitVec.testBit_toNat]
  by_cases hi : i < k
  · simp [hi]
  · rw [Nat.sub_add_cancel (by omega)]
    by_cases hw : i < w
    · simp [hi, hw]
      omega
    · simp [hi, hw, BitVec.getLsbD_of_ge a i (by omega)]

theorem toNat_add_mask_and_not_mask (a : BitVec w) (h : a.toNat + (2 ^ k - 1) < 2 ^ w) :
    ((a + BitVec.ofNat w (2 ^ k - 1)) &&& ~~~(BitVec.ofNat w (2 ^ k - 1))).toNat =
      (a.toNat + (2 ^ k - 1)) / 2 ^ k * 2 ^ k := by
  rw [toNat_and_not_mask, BitVec.toNat_add, BitVec.toNat_ofNat, Nat.add_mod_mod, Nat.mod_eq_of_lt h]

end Ysyx
