import Mathlib.Data.BitVec
import Mathlib.Tactic

/-! Multiplication by shifting and adding, and division by shifting and subtracting, one bit a
turn. The numbers of one turn are all that is here; a loop that goes through the turns takes
its invariant from them. -/

namespace Ysyx.ShiftArith

/-- One turn: the lowest bit of the multiplier decides whether the multiplicand is added. -/
theorem mul_turn {w : ℕ} (acc a b : BitVec w) :
    acc + a * b = (if a.getLsbD 0 then acc + b else acc) + a >>> 1 * b <<< 1 := by
  have ha : a = BitVec.ofNat w (2 * (a.toNat / 2) + a.toNat % 2) := by
    rw [Nat.div_add_mod, BitVec.ofNat_toNat, BitVec.setWidth_eq]
  have hhalf : a >>> 1 = BitVec.ofNat w (a.toNat / 2) := by
    apply BitVec.eq_of_toNat_eq
    rw [BitVec.toNat_ushiftRight, Nat.shiftRight_eq_div_pow, BitVec.toNat_ofNat, pow_one,
      Nat.mod_eq_of_lt (lt_of_le_of_lt (Nat.div_le_self _ _) a.isLt)]
  have hbit : a.getLsbD 0 = decide (a.toNat % 2 = 1) := by
    rw [← BitVec.testBit_toNat, Nat.testBit_zero]
  have htwice : b <<< 1 = BitVec.ofNat w 2 * b := by
    rw [BitVec.shiftLeft_eq_mul_twoPow, mul_comm]
    congr 1
    apply BitVec.eq_of_toNat_eq
    rw [BitVec.toNat_twoPow, BitVec.toNat_ofNat, pow_one]
  rw [hhalf, htwice, hbit]
  nth_rewrite 1 [ha]
  rw [BitVec.ofNat_add, BitVec.ofNat_mul]
  rcases Nat.mod_two_eq_zero_or_one a.toNat with h | h
  · rw [h, if_neg (by decide), BitVec.add_zero]
    ring
  · rw [h, if_pos (by decide)]
    have hone : BitVec.ofNat w 1 = (1 : BitVec w) := rfl
    rw [hone]
    ring

/-- `q` holds the bits of the quotient from `j` on, and `r` is what is left of the dividend. -/
structure DivDown (n d j q r : ℕ) : Prop where
  split : n = q * d + r
  high : 2 ^ j ∣ q
  rest : r < 2 ^ j * d

section Down

variable {n d j q r : ℕ}

theorem DivDown.start (h : n < 2 ^ j * d) : DivDown n d j 0 n :=
  ⟨by rw [Nat.zero_mul, Nat.zero_add], dvd_zero _, h⟩

theorem DivDown.skip (h : DivDown n d (j + 1) q r) (hr : r < 2 ^ j * d) : DivDown n d j q r :=
  ⟨h.split, (pow_dvd_pow 2 (Nat.le_succ j)).trans h.high, hr⟩

theorem DivDown.take (h : DivDown n d (j + 1) q r) (hr : 2 ^ j * d ≤ r) :
    DivDown n d j (q + 2 ^ j) (r - 2 ^ j * d) where
  split := by
    have hs := h.split
    rw [Nat.add_mul]
    omega
  high := ((pow_dvd_pow 2 (Nat.le_succ j)).trans h.high).add (dvd_refl _)
  rest := by
    have hs := h.rest
    rw [pow_succ, Nat.mul_assoc, Nat.mul_left_comm, Nat.two_mul] at hs
    omega

/-- Bit `j` of the quotient is still clear, so setting it adds its value. -/
theorem DivDown.or_eq_add (h : DivDown n d (j + 1) q r) : q ||| 2 ^ j = q + 2 ^ j := by
  obtain ⟨p, hp⟩ := h.high
  rw [hp, ← Nat.two_pow_add_eq_or_of_lt (Nat.pow_lt_pow_right (by decide) (Nat.lt_succ_self j))]

theorem DivDown.done (h : DivDown n d 0 q r) : q = n / d ∧ r = n % d := by
  have hr : r < d := by simpa using h.rest
  have hd : 0 < d := by omega
  rw [h.split, Nat.add_comm, Nat.add_mul_div_right _ _ hd, Nat.add_mul_mod_self_right,
    Nat.div_eq_of_lt hr, Nat.mod_eq_of_lt hr]
  exact ⟨(Nat.zero_add q).symm, rfl⟩

end Down

/-- One more bit of the dividend: the quotient and remainder of the part above bit `i` from those
of the part above bit `i + 1`. -/
theorem div_turn (n d i : ℕ) (hd : 0 < d) :
    let r := 2 * (n / 2 ^ (i + 1) % d) + n / 2 ^ i % 2
    n / 2 ^ i / d = 2 * (n / 2 ^ (i + 1) / d) + (if d ≤ r then 1 else 0) ∧
      n / 2 ^ i % d = r - (if d ≤ r then d else 0) := by
  intro r
  have hbit : n / 2 ^ i = 2 * (n / 2 ^ (i + 1)) + n / 2 ^ i % 2 := by
    have hhalf : n / 2 ^ (i + 1) = n / 2 ^ i / 2 := by
      rw [pow_succ, Nat.div_div_eq_div_mul]
    omega
  have hsplit := Nat.div_add_mod (n / 2 ^ (i + 1)) d
  have hlt := Nat.mod_lt (n / 2 ^ (i + 1)) hd
  have hnum : n / 2 ^ i = d * (2 * (n / 2 ^ (i + 1) / d)) + r := by
    have htwice : d * (2 * (n / 2 ^ (i + 1) / d)) = 2 * (d * (n / 2 ^ (i + 1) / d)) := by ring
    omega
  rw [hnum, Nat.mul_add_div hd, Nat.mul_add_mod]
  split_ifs with hr
  · have hrd : r < 2 * d := by omega
    have hq : r / d = 1 := Nat.div_eq_of_lt_le (by omega) (by omega)
    have hm : r % d = r - d := by
      rw [Nat.mod_eq_sub_mod hr, Nat.mod_eq_of_lt (by omega)]
    exact ⟨by rw [hq], hm⟩
  · have hlt' : r < d := by omega
    exact ⟨by rw [Nat.div_eq_of_lt hlt'], Nat.mod_eq_of_lt hlt'⟩

end Ysyx.ShiftArith
