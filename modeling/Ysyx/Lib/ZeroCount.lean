import Mathlib.Data.BitVec
import Mathlib.Tactic

/-! Counting the zeros above the highest and below the lowest one of a word: what determines the
two counts, and the search that halves the part of the word it looks at. -/

namespace Ysyx.ZeroCount

section Counts

variable {w c : ℕ} {x : BitVec w}

theorem toNat_clz_eq (hc : c < w) (hlo : 2 ^ (w - 1 - c) ≤ x.toNat) (hhi : x.toNat < 2 ^ (w - c)) :
    x.clz.toNat = c := by
  have hne : x ≠ 0#w := by
    rintro rfl
    exact absurd hlo (by simp)
  have hlo' := BitVec.two_pow_sub_clz_le_toNat_of_ne_zero (by omega) hne
  have hhi' := BitVec.toNat_lt_two_pow_sub_clz (x := x)
  have h₁ := (Nat.pow_lt_pow_iff_right (by decide)).mp (hlo.trans_lt hhi')
  have h₂ := (Nat.pow_lt_pow_iff_right (by decide)).mp (hlo'.trans_lt hhi)
  omega

theorem testBit_of_dvd {n k : ℕ} (h : 2 ^ c ∣ n) (hk : k < c) : n.testBit k = false := by
  obtain ⟨m, rfl⟩ := h
  rw [Nat.testBit_two_pow_mul]
  simp [hk]

theorem toNat_ctz_eq (hdvd : 2 ^ c ∣ x.toNat) (hodd : ¬ 2 ^ (c + 1) ∣ x.toNat) :
    x.ctz.toNat = c := by
  have hne : x ≠ 0#w := by
    rintro rfl
    exact hodd (by simp)
  have hbit : x.toNat.testBit c = true := by
    obtain ⟨m, hm⟩ := hdvd
    rw [hm, Nat.testBit_two_pow_mul, Nat.sub_self, Nat.testBit_zero]
    by_contra hmod
    refine hodd ⟨m / 2, ?_⟩
    rw [hm, pow_succ, Nat.mul_assoc]
    congr 1
    simp only [ge_iff_le, le_refl, decide_true, Bool.true_and, decide_eq_true_eq] at hmod
    omega
  have hbit' : x.toNat.testBit x.ctz.toNat = true := by
    rw [BitVec.testBit_toNat]
    exact BitVec.getLsbD_true_ctz_of_ne_zero hne
  rcases Nat.lt_trichotomy x.ctz.toNat c with h | h | h
  · rw [testBit_of_dvd hdvd h] at hbit'
    cases hbit'
  · exact h
  · have hfalse := BitVec.getLsbD_false_of_lt_ctz h
    rw [← BitVec.testBit_toNat, hbit] at hfalse
    cases hfalse

theorem toNat_clz_lt (hx : x ≠ 0#w) : x.clz.toNat < w := by
  have hlt := BitVec.lt_def.mp (BitVec.clz_lt_iff_ne_zero.mpr hx)
  rw [BitVec.natCast_eq_ofNat, BitVec.toNat_ofNat] at hlt
  exact hlt.trans_le (Nat.mod_le _ _)

theorem clz_bounds (hx : x ≠ 0#w) :
    2 ^ (w - 1 - x.clz.toNat) ≤ x.toNat ∧ x.toNat < 2 ^ (w - x.clz.toNat) :=
  ⟨BitVec.two_pow_sub_clz_le_toNat_of_ne_zero (by have := toNat_clz_lt hx; omega) hx,
    BitVec.toNat_lt_two_pow_sub_clz⟩

theorem toNat_ctz_lt (hx : x ≠ 0#w) : x.ctz.toNat < w := by
  have hlt := BitVec.lt_def.mp (BitVec.ctz_lt_iff_ne_zero.mpr hx)
  rw [BitVec.natCast_eq_ofNat, BitVec.toNat_ofNat] at hlt
  exact hlt.trans_le (Nat.mod_le _ _)

theorem dvd_of_testBit {n : ℕ} (h : ∀ k < c, n.testBit k = false) : 2 ^ c ∣ n := by
  refine Nat.dvd_of_mod_eq_zero (Nat.eq_of_testBit_eq fun k => ?_)
  rw [Nat.testBit_mod_two_pow, Nat.zero_testBit]
  by_cases hk : k < c
  · rw [h k hk, Bool.and_false]
  · rw [decide_eq_false hk, Bool.false_and]

theorem ctz_dvd (hx : x ≠ 0#w) :
    2 ^ x.ctz.toNat ∣ x.toNat ∧ ¬ 2 ^ (x.ctz.toNat + 1) ∣ x.toNat := by
  constructor
  · refine dvd_of_testBit fun k hk => ?_
    rw [BitVec.testBit_toNat]
    exact BitVec.getLsbD_false_of_lt_ctz hk
  · intro h
    have hbit := BitVec.getLsbD_true_ctz_of_ne_zero hx
    rw [← BitVec.testBit_toNat, testBit_of_dvd h (Nat.lt_succ_self _)] at hbit
    cases hbit

/-- Where `x & (x - 1)` is zero, `x` is the power of two that its trailing zeros say. -/
theorem eq_two_pow_ctz (hx : x ≠ 0#w) (h : x &&& (x - 1) = 0) : x.toNat = 2 ^ x.ctz.toNat := by
  have hpos : x.toNat ≠ 0 := fun h0 => hx (BitVec.eq_of_toNat_eq h0)
  have hw : 0 < w := (Nat.zero_le _).trans_lt (toNat_clz_lt hx)
  have hone : (1 : BitVec w).toNat = 1 := BitVec.toNat_one hw
  have hnat : x.toNat &&& (x.toNat - 1) = 0 := by
    have hval := congrArg BitVec.toNat h
    rw [BitVec.toNat_and, BitVec.toNat_sub_of_le (by rw [BitVec.le_def, hone]; omega), hone] at hval
    exact hval
  obtain ⟨c, hc⟩ := (Nat.and_sub_one_eq_zero_iff_isPowerOfTwo hpos).mp hnat
  have hctz : x.ctz.toNat = c := toNat_ctz_eq (by rw [hc]) fun hdvd => by
    rw [hc, Nat.pow_dvd_pow_iff_le_right (by decide)] at hdvd
    omega
  rw [hctz, hc]

end Counts

/-- `r` zeros have been counted, and the highest one of `a` is among the lowest `m` bits of `x`. -/
structure Leading (w a m x r : ℕ) : Prop where
  value : x = a / 2 ^ (w - m - r)
  room : r + m ≤ w
  pos : 0 < x
  fits : x < 2 ^ m

section Leading

variable {w a m n x r : ℕ}

theorem Leading.start (h0 : 0 < a) (ha : a < 2 ^ w) : Leading w a w a 0 where
  value := by rw [Nat.sub_self, pow_zero, Nat.div_one]
  room := by omega
  pos := h0
  fits := ha

/-- The upper half is zero. -/
theorem Leading.low (h : Leading w a (2 * n) x r) (hx : x < 2 ^ n) : Leading w a n x (r + n) where
  value := by
    have heq : w - n - (r + n) = w - 2 * n - r := by omega
    rw [heq]
    exact h.value
  room := by have := h.room; omega
  pos := h.pos
  fits := hx

/-- The upper half is not zero. -/
theorem Leading.high (h : Leading w a (2 * n) x r) (hx : 2 ^ n ≤ x) :
    Leading w a n (x / 2 ^ n) r where
  value := by
    have heq : w - n - r = w - 2 * n - r + n := by have := h.room; omega
    rw [h.value, Nat.div_div_eq_div_mul, ← pow_add, heq]
  room := by have := h.room; omega
  pos := Nat.div_pos hx (Nat.two_pow_pos n)
  fits := by
    have hfits := h.fits
    rw [two_mul, pow_add] at hfits
    exact Nat.div_lt_of_lt_mul hfits

/-- The end of the search. -/
theorem Leading.bounds (h : Leading w a 1 x r) : 2 ^ (w - 1 - r) ≤ a ∧ a < 2 ^ (w - r) := by
  have hx : x = 1 := by
    have := h.pos
    have := h.fits
    omega
  have hval := h.value
  have hroom := h.room
  rw [hx] at hval
  have hpos := Nat.two_pow_pos (w - 1 - r)
  have hsucc : w - r = w - 1 - r + 1 := by omega
  rw [hsucc, pow_succ]
  have hdiv := Nat.div_add_mod a (2 ^ (w - 1 - r))
  rw [← hval] at hdiv
  have hmod := Nat.mod_lt a hpos
  omega

end Leading

/-- `r` zeros have been counted, and the lowest one of `a` is among the lowest `m` bits of `x`. -/
structure Trailing (a m x r : ℕ) : Prop where
  value : x = a / 2 ^ r
  dvd : 2 ^ r ∣ a
  odd : ¬ 2 ^ m ∣ x

section Trailing

variable {a m n x r : ℕ}

theorem Trailing.start (h0 : 0 < a) (ha : a < 2 ^ m) : Trailing a m a 0 where
  value := by rw [pow_zero, Nat.div_one]
  dvd := one_dvd a
  odd h := absurd (Nat.le_of_dvd h0 h) (not_le.mpr ha)

/-- The lower half is zero. -/
theorem Trailing.high (h : Trailing a (2 * n) x r) (hx : 2 ^ n ∣ x) :
    Trailing a n (x / 2 ^ n) (r + n) where
  value := by rw [h.value, Nat.div_div_eq_div_mul, ← pow_add]
  dvd := by
    obtain ⟨p, hp⟩ := h.dvd
    have hval := h.value
    rw [hp, Nat.mul_div_cancel_left _ (Nat.two_pow_pos r)] at hval
    rw [hp, pow_add, ← hval]
    exact Nat.mul_dvd_mul_left _ hx
  odd hdvd := by
    refine h.odd ?_
    rw [two_mul, pow_add, ← Nat.mul_div_cancel' hx]
    exact Nat.mul_dvd_mul_left _ hdvd

/-- The lower half is not zero. -/
theorem Trailing.low (h : Trailing a (2 * n) x r) (hx : ¬ 2 ^ n ∣ x) : Trailing a n x r where
  value := h.value
  dvd := h.dvd
  odd := hx

theorem Trailing.odd_rest (h : Trailing a 1 x r) : ¬ 2 ^ (r + 1) ∣ a := by
  rintro ⟨p, hp⟩
  refine h.odd ⟨p, ?_⟩
  rw [h.value, hp, pow_succ, Nat.mul_assoc, Nat.mul_div_cancel_left _ (Nat.two_pow_pos r), pow_one]

end Trailing

end Ysyx.ZeroCount
