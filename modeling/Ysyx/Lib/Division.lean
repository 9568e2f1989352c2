import Mathlib.Tactic

/-! When two quotients, or two remainders, are equal: of natural numbers by products and
divisibility, and of integers that are divided towards zero by magnitude and sign. -/

namespace Ysyx.Division

section Naturals

variable {x y X Y : ℕ}

/-- `x / y` and `X / Y` multiplied crosswise. -/
def QuotAgree (x y X Y : ℕ) : Prop :=
  x * Y ≤ y * X + x % y * Y ∧ y * X + x % y * Y < (x + y) * Y

theorem div_eq_div_iff (hy : 0 < y) (hY : 0 < Y) : x / y = X / Y ↔ QuotAgree x y X Y := by
  have hx := Nat.div_add_mod x y
  have hlow : x * Y ≤ y * X + x % y * Y ↔ Y * (x / y) ≤ X := by
    have hsplit : x * Y = y * (Y * (x / y)) + x % y * Y := by
      calc x * Y = (y * (x / y) + x % y) * Y := by rw [hx]
        _ = y * (Y * (x / y)) + x % y * Y := by ring
    rw [hsplit, Nat.add_le_add_iff_right, Nat.mul_le_mul_left_iff hy]
  have hhigh : y * X + x % y * Y < (x + y) * Y ↔ X < Y * (x / y + 1) := by
    have hsplit : (x + y) * Y = y * (Y * (x / y + 1)) + x % y * Y := by
      calc (x + y) * Y = (y * (x / y) + x % y + y) * Y := by rw [hx]
        _ = y * (Y * (x / y + 1)) + x % y * Y := by ring
    rw [hsplit, Nat.add_lt_add_iff_right, Nat.mul_lt_mul_left hy]
  rw [QuotAgree, hlow, hhigh, eq_comm, Nat.div_eq_iff hY]
  constructor
  · rintro ⟨hle, hlt⟩
    exact ⟨by rw [Nat.mul_comm]; exact hle, by rw [Nat.mul_add, Nat.mul_comm Y, Nat.mul_one]; omega⟩
  · rintro ⟨hle, hlt⟩
    rw [Nat.mul_add, Nat.mul_comm Y, Nat.mul_one] at hlt
    exact ⟨by rw [Nat.mul_comm]; exact hle, by omega⟩

/-- `X` is as far above a multiple of `Y` as `x` is above one of `y`. -/
def RemAgree (x y X Y : ℕ) : Prop := (Y : ℤ) ∣ X - x + y * (x / y : ℕ)

theorem mod_eq_mod_iff (hy : 0 < y) (hle : y ≤ Y) : x % y = X % Y ↔ RemAgree x y X Y := by
  have hlt : x % y < Y := (Nat.mod_lt x hy).trans_le hle
  have hdiff : (X : ℤ) - x + y * (x / y : ℕ) = (X : ℤ) - (x % y : ℕ) := by
    have hx : (x : ℤ) = y * (x / y : ℕ) + (x % y : ℕ) := by
      exact_mod_cast (Nat.div_add_mod x y).symm
    linarith
  rw [RemAgree, hdiff, ← Nat.modEq_iff_dvd, Nat.ModEq, Nat.mod_eq_of_lt hlt]

end Naturals

section Integers

variable {a b c d : ℤ}

theorem tdiv_eq (a b : ℤ) :
    a.tdiv b = if a < 0 ↔ b < 0 then ((a.natAbs / b.natAbs : ℕ) : ℤ)
      else -((a.natAbs / b.natAbs : ℕ) : ℤ) := by
  obtain ⟨n, hn⟩ := Int.eq_nat_or_neg a
  obtain ⟨m, hm⟩ := Int.eq_nat_or_neg b
  -- a quotient of zero or by zero has no sign
  have hn0 : n = 0 → n / m = 0 := fun h => by rw [h, Nat.zero_div]
  have hm0 : m = 0 → n / m = 0 := fun h => by rw [h, Nat.div_zero]
  have hcast : (n : ℤ).tdiv m = (n / m : ℕ) := rfl
  rcases hn with rfl | rfl <;> rcases hm with rfl | rfl <;>
    simp only [Int.tdiv_neg, Int.neg_tdiv, Int.natAbs_neg, Int.natAbs_natCast, hcast] <;>
    generalize n / m = q at hn0 hm0 <;> split_ifs <;> omega

theorem tmod_eq (a b : ℤ) :
    a.tmod b = if a < 0 then -((a.natAbs % b.natAbs : ℕ) : ℤ)
      else ((a.natAbs % b.natAbs : ℕ) : ℤ) := by
  obtain ⟨n, hn⟩ := Int.eq_nat_or_neg a
  obtain ⟨m, hm⟩ := Int.eq_nat_or_neg b
  have hn0 : n = 0 → n % m = 0 := fun h => by rw [h, Nat.zero_mod]
  have hcast : (n : ℤ).tmod m = (n % m : ℕ) := rfl
  rcases hn with rfl | rfl <;> rcases hm with rfl | rfl <;>
    simp only [Int.tmod_neg, Int.neg_tmod, Int.natAbs_neg, Int.natAbs_natCast, hcast] <;>
    generalize n % m = r at hn0 <;> split_ifs <;> omega

theorem signed_eq_iff {p p' : Prop} [Decidable p] [Decidable p'] {q q' : ℕ} :
    (if p then (q : ℤ) else -q) = (if p' then (q' : ℤ) else -q') ↔ q = q' ∧ (q = 0 ∨ (p ↔ p')) := by
  by_cases hp : p <;> by_cases hp' : p' <;>
    simp only [hp, hp', if_true, if_false, iff_true, iff_false, not_true_eq_false, or_true,
      or_false, and_true] <;> omega

theorem tdiv_eq_tdiv_iff (hb : b ≠ 0) (hd : d ≠ 0) :
    a.tdiv b = c.tdiv d ↔ QuotAgree a.natAbs b.natAbs c.natAbs d.natAbs ∧
      (a.natAbs < b.natAbs ∨ ((a < 0 ↔ b < 0) ↔ (c < 0 ↔ d < 0))) := by
  have hsmall : a.natAbs < b.natAbs ↔ a.natAbs / b.natAbs = 0 :=
    (Nat.div_eq_zero_iff_lt (by omega)).symm
  rw [tdiv_eq, tdiv_eq, hsmall, ← div_eq_div_iff (by omega) (by omega)]
  exact signed_eq_iff

theorem tmod_eq_tmod_iff (hb : b ≠ 0) (hle : b.natAbs ≤ d.natAbs) :
    a.tmod b = c.tmod d ↔ RemAgree a.natAbs b.natAbs c.natAbs d.natAbs ∧
      (b.natAbs ∣ a.natAbs ∨ (a < 0 ↔ c < 0)) := by
  rw [tmod_eq, tmod_eq, Nat.dvd_iff_mod_eq_zero, ← mod_eq_mod_iff (by omega) hle, ← ite_not,
    ← ite_not (c < 0), signed_eq_iff, not_iff_not]

end Integers

end Ysyx.Division
