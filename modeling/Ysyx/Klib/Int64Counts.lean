import Ysyx.Klib.Int64

/-! `__clzsi2`, `__ctzsi2` and their 64-bit forms count zeros, also on zero. -/

namespace Ysyx.Klib.Int64

open Bytes Halves ZeroCount

/-- The mask has the bits from `i` to `j`. -/
def HasBits (m : Word) (i j : ℕ) : Prop :=
  ∀ k < 32, m.getLsbD k = decide (i ≤ k ∧ k < j)

instance (m : Word) (i j : ℕ) : Decidable (HasBits m i j) :=
  inferInstanceAs (Decidable (∀ _ < _, _))

theorem getLsbD_zero_word (i : ℕ) : (0 : Word).getLsbD i = false := BitVec.getLsbD_zero

section Masks

variable {m x : Word} {n k : ℕ}

theorem and_upper (hmask : HasBits m n (2 * n)) (hn : 2 * n ≤ 32) (hx : x.toNat < 2 ^ (2 * n)) :
    x &&& m = 0 ↔ x.toNat < 2 ^ n := by
  constructor
  · intro h
    refine Nat.lt_pow_two_of_testBit _ fun i hi => ?_
    by_cases hi' : i < 2 * n
    · have hbit := congrArg (fun y : Word => y.getLsbD i) h
      rw [BitVec.getLsbD_and, hmask i (by omega), decide_eq_true ⟨hi, hi'⟩, Bool.and_true] at hbit
      rw [BitVec.testBit_toNat, hbit]
      exact getLsbD_zero_word i
    · exact Nat.testBit_lt_two_pow (hx.trans_le (Nat.pow_le_pow_right (by decide) (by omega)))
  · intro h
    apply BitVec.eq_of_getLsbD_eq
    intro i hi
    rw [BitVec.getLsbD_and, hmask i hi, ← BitVec.testBit_toNat]
    by_cases hni : n ≤ i
    · rw [Nat.testBit_lt_two_pow (h.trans_le (Nat.pow_le_pow_right (by decide) hni)), Bool.false_and]
      exact (getLsbD_zero_word i).symm
    · rw [decide_eq_false fun hc => hni hc.1, Bool.and_false]
      exact (getLsbD_zero_word i).symm

theorem and_lower (hmask : HasBits m 0 n) (hn : n ≤ 32) : x &&& m = 0 ↔ 2 ^ n ∣ x.toNat := by
  constructor
  · intro h
    refine dvd_of_testBit fun i hi => ?_
    have hbit := congrArg (fun y : Word => y.getLsbD i) h
    rw [BitVec.getLsbD_and, hmask i (by omega), decide_eq_true ⟨Nat.zero_le i, hi⟩,
      Bool.and_true] at hbit
    rw [BitVec.testBit_toNat, hbit]
    exact getLsbD_zero_word i
  · intro h
    apply BitVec.eq_of_getLsbD_eq
    intro i hi
    rw [BitVec.getLsbD_and, hmask i hi, ← BitVec.testBit_toNat]
    by_cases hni : i < n
    · rw [testBit_of_dvd h hni, Bool.false_and]
      exact (getLsbD_zero_word i).symm
    · rw [decide_eq_false fun hc => hni hc.2, Bool.and_false]
      exact (getLsbD_zero_word i).symm

theorem ofCond_shiftLeft (b : Bool) (hk : k < 32) :
    (ofCond b <<< k).toNat = if b then 2 ^ k else 0 := by
  have hlt : 2 ^ k < 2 ^ 32 := Nat.pow_lt_pow_right (by decide) hk
  rw [BitVec.toNat_shiftLeft, Nat.shiftLeft_eq]
  cases b with
  | true =>
    have hone : (ofCond true).toNat = 1 := rfl
    rw [if_pos rfl, hone, Nat.one_mul, Nat.mod_eq_of_lt hlt]
  | false =>
    have hzero : (ofCond false).toNat = 0 := rfl
    rw [if_neg (by decide), hzero, Nat.zero_mul, Nat.zero_mod]

theorem toNat_shr (x t : Word) : (x >>> t).toNat = x.toNat / 2 ^ t.toNat := by
  rw [BitVec.ushiftRight_eq', BitVec.toNat_ushiftRight, Nat.shiftRight_eq_div_pow]

end Masks

section Turns

variable {a k : ℕ} {m n x r : Word}

theorem clzTurn_leading (hk : k < 5) (hn : n.toNat = 2 ^ k)
    (hmask : HasBits m (2 ^ k) (2 * 2 ^ k)) (h : Leading 32 a (2 * 2 ^ k) x.toNat r.toNat) :
    Leading 32 a (2 ^ k) (clzTurn m k n x r).1.toNat (clzTurn m k n x r).2.toNat := by
  have hroom := h.room
  have ht := ofCond_shiftLeft (k := k) (x &&& m == 0) (by omega)
  rw [clzTurn]
  simp only
  rw [toNat_shr, BitVec.toNat_sub, BitVec.toNat_add, hn, ht]
  by_cases hlow : x.toNat < 2 ^ 2 ^ k
  · rw [if_pos (beq_iff_eq.mpr ((and_upper hmask (by omega) h.fits).mpr hlow)),
      Nat.sub_add_cancel (by omega), Nat.mod_self, pow_zero, Nat.div_one, Nat.mod_eq_of_lt (by omega)]
    exact h.low hlow
  · have hne : (x &&& m == 0) = false :=
      beq_eq_false_iff_ne.mpr fun h0 => hlow ((and_upper hmask (by omega) h.fits).mp h0)
    rw [hne, if_neg (by decide), Nat.sub_zero, Nat.add_mod_left, Nat.mod_eq_of_lt (by omega),
      Nat.add_zero, Nat.mod_eq_of_lt (by omega)]
    exact h.high (not_lt.mp hlow)

theorem ctzTurn_trailing (hk : k < 5) (hmask : HasBits m 0 (2 ^ k))
    (hr : r.toNat + 2 ^ k ≤ 32) (h : Trailing a (2 * 2 ^ k) x.toNat r.toNat) :
    Trailing a (2 ^ k) (ctzTurn m k x r).1.toNat (ctzTurn m k x r).2.toNat ∧
      (ctzTurn m k x r).2.toNat ≤ r.toNat + 2 ^ k := by
  have ht := ofCond_shiftLeft (k := k) (x &&& m == 0) (by omega)
  rw [ctzTurn]
  simp only
  rw [toNat_shr, BitVec.toNat_add, ht]
  by_cases hlow : 2 ^ 2 ^ k ∣ x.toNat
  · rw [if_pos (beq_iff_eq.mpr ((and_lower hmask (by omega)).mpr hlow)),
      Nat.mod_eq_of_lt (by omega)]
    exact ⟨h.high hlow, le_rfl⟩
  · have hne : (x &&& m == 0) = false :=
      beq_eq_false_iff_ne.mpr fun h0 => hlow ((and_lower hmask (by omega)).mp h0)
    rw [hne, if_neg (by decide), pow_zero, Nat.div_one, Nat.add_zero, Nat.mod_eq_of_lt (by omega)]
    exact ⟨h.low hlow, Nat.le_add_right _ _⟩

end Turns

theorem clz_last {x : Word} (h0 : 0 < x.toNat) (h4 : x.toNat < 4) :
    ((2 - x) &&& -ofCond (x &&& 2 == 0)).toNat = if x.toNat < 2 then 1 else 0 := by
  have hx : x = 1 ∨ x = 2 ∨ x = 3 := by
    rw [← BitVec.toNat_inj, ← BitVec.toNat_inj, ← BitVec.toNat_inj]
    change x.toNat = 1 ∨ x.toNat = 2 ∨ x.toNat = 3
    omega
  rcases hx with rfl | rfl | rfl <;> rfl

theorem ctz_last (x : Word) (h : ¬ 4 ∣ x.toNat) :
    ((2 - ((x &&& 3) >>> 1)) &&& -ofCond (x &&& 3 &&& 1 == 0)).toNat =
      if 2 ∣ x.toNat then 1 else 0 := by
  have hmod : (x &&& 3).toNat = x.toNat % 4 := by
    rw [BitVec.toNat_and]
    exact Nat.and_two_pow_sub_one_eq_mod x.toNat 2
  have hpart : x &&& 3 = 1 ∨ x &&& 3 = 2 ∨ x &&& 3 = 3 := by
    rw [← BitVec.toNat_inj, ← BitVec.toNat_inj, ← BitVec.toNat_inj, hmod]
    change x.toNat % 4 = 1 ∨ x.toNat % 4 = 2 ∨ x.toNat % 4 = 3
    omega
  rcases hpart with hp | hp | hp
  · rw [hp, if_neg (by rw [hp] at hmod; change 1 = _ at hmod; omega)]
    rfl
  · rw [hp, if_pos (by rw [hp] at hmod; change 2 = _ at hmod; omega)]
    rfl
  · rw [hp, if_neg (by rw [hp] at hmod; change 3 = _ at hmod; omega)]
    rfl

theorem clz_zero_word : (0 : Word).clz = 32 := BitVec.clz_eq_iff_eq_zero.mpr rfl

theorem ctz_zero_word : (0 : Word).ctz = 32 := by
  have hrev : (0 : Word).reverse = 0 := BitVec.reverse_eq_zero_iff.mpr rfl
  rw [BitVec.ctz_eq_reverse_clz, hrev, clz_zero_word]

theorem clzsi2_eq (a : Word) : clzsi2 a = a.clz := by
  by_cases ha : a = 0
  · rw [ha, clz_zero_word]
    decide
  have h0 : 0 < a.toNat := Nat.pos_of_ne_zero fun h => ha (BitVec.eq_of_toNat_eq h)
  have h₁ := clzTurn_leading (m := 0xFFFF0000) (n := 16) (k := 4) (by decide) rfl (by decide)
    (r := 0) (.start h0 a.isLt)
  have h₂ := clzTurn_leading (m := 0xFF00) (n := 8) (k := 3) (by decide) rfl (by decide) h₁
  have h₃ := clzTurn_leading (m := 0xF0) (n := 4) (k := 2) (by decide) rfl (by decide) h₂
  have h₄ := clzTurn_leading (m := 0xC) (n := 2) (k := 1) (by decide) rfl (by decide) h₃
  apply BitVec.eq_of_toNat_eq
  rw [clzsi2]
  simp only
  generalize (clzTurn 0xC 1 2 _ _).1 = x at h₄ ⊢
  generalize (clzTurn 0xC 1 2 _ _).2 = r at h₄ ⊢
  have hroom := h₄.room
  have hend : Leading 32 a.toNat 1 (if x.toNat < 2 then x.toNat else x.toNat / 2)
      (r.toNat + if x.toNat < 2 then 1 else 0) := by
    split_ifs with hx
    · exact Leading.low (n := 1) h₄ hx
    · exact Leading.high (n := 1) h₄ (not_lt.mp hx)
  have hroom' := hend.room
  rw [BitVec.toNat_add, clz_last h₄.pos h₄.fits, Nat.mod_eq_of_lt (by omega)]
  exact (toNat_clz_eq (by omega) hend.bounds.1 hend.bounds.2).symm

theorem ctzsi2_eq (a : Word) : ctzsi2 a = a.ctz := by
  by_cases ha : a = 0
  · rw [ha, ctz_zero_word]
    decide
  have h0 : 0 < a.toNat := Nat.pos_of_ne_zero fun h => ha (BitVec.eq_of_toNat_eq h)
  obtain ⟨h₁, hr₁⟩ := ctzTurn_trailing (m := 0x0000FFFF) (k := 4) (by decide) (by decide)
    (r := 0) (by decide) (.start h0 a.isLt)
  change _ ≤ 0 + _ at hr₁
  obtain ⟨h₂, hr₂⟩ := ctzTurn_trailing (m := 0x00FF) (k := 3) (by decide) (by decide)
    (by omega) h₁
  obtain ⟨h₃, hr₃⟩ := ctzTurn_trailing (m := 0x0F) (k := 2) (by decide) (by decide) (by omega) h₂
  obtain ⟨h₄, hr₄⟩ := ctzTurn_trailing (m := 0x3) (k := 1) (by decide) (by decide) (by omega) h₃
  apply BitVec.eq_of_toNat_eq
  rw [ctzsi2]
  simp only
  generalize (ctzTurn 0x3 1 _ _).1 = x at h₄ ⊢
  generalize (ctzTurn 0x3 1 _ _).2 = r at h₄ hr₄ ⊢
  have hend : Trailing a.toNat 1 (if 2 ∣ x.toNat then x.toNat / 2 else x.toNat)
      (r.toNat + if 2 ∣ x.toNat then 1 else 0) := by
    split_ifs with hx
    · exact Trailing.high (n := 1) h₄ hx
    · exact Trailing.low (n := 1) h₄ hx
  have hlt : (if 2 ∣ x.toNat then 1 else 0) ≤ 1 := by split_ifs <;> omega
  rw [BitVec.toNat_add, ctz_last x h₄.odd, Nat.mod_eq_of_lt (by omega)]
  exact (toNat_ctz_eq hend.dvd hend.odd_rest).symm

section Double

variable {a : DWord}

theorem select (x y : Word) (b : Bool) :
    ((x &&& ~~~(-ofCond b)) ||| (y &&& -ofCond b)) = if b then y else x := by
  have hones : -ofCond true = BitVec.allOnes 32 := by decide
  have hzero : -ofCond false = 0#32 := by decide
  cases b with
  | true => rw [hones, BitVec.not_allOnes, BitVec.and_zero, BitVec.zero_or, BitVec.and_allOnes]; rfl
  | false => rw [hzero, BitVec.not_zero, BitVec.and_zero, BitVec.or_zero, BitVec.and_allOnes]; rfl

theorem ofCond_and (b : Bool) : -ofCond b &&& 32 = if b then 32 else 0 := by cases b <;> decide

theorem eq_zero_of_halves (hhi : hi a = 0) (hlo : lo a = 0) : a = 0 := by
  have h := toNat_eq_halves a
  rw [hhi, hlo] at h
  exact BitVec.eq_of_toNat_eq h

theorem toNat_clz_zero : (0 : DWord).clz.toNat = 64 :=
  congrArg BitVec.toNat (BitVec.clz_eq_iff_eq_zero.mpr (rfl : (0 : DWord) = 0#64))

theorem toNat_ctz_zero : (0 : DWord).ctz.toNat = 64 := by
  have hrev : (0 : DWord).reverse = 0 := BitVec.reverse_eq_zero_iff.mpr rfl
  rw [BitVec.ctz_eq_reverse_clz, hrev, toNat_clz_zero]

theorem hi_bounds (h : hi a ≠ 0) :
    2 ^ (63 - (hi a).clz.toNat) ≤ a.toNat ∧ a.toNat < 2 ^ (64 - (hi a).clz.toNat) := by
  have hnum := toNat_eq_halves a
  have hlt := (lo a).isLt
  obtain ⟨h₁, h₂⟩ := clz_bounds (show hi a ≠ 0#32 from h)
  have hc := toNat_clz_lt (show hi a ≠ 0#32 from h)
  constructor
  · rw [show 63 - (hi a).clz.toNat = 32 + (32 - 1 - (hi a).clz.toNat) by omega, pow_add]
    have := Nat.mul_le_mul_left (2 ^ 32) h₁
    omega
  · rw [show 64 - (hi a).clz.toNat = 32 + (32 - (hi a).clz.toNat) by omega, pow_add]
    have := Nat.mul_le_mul_left (2 ^ 32) h₂
    omega

theorem clzdi2_eq (a : DWord) : (clzdi2 a).toNat = a.clz.toNat := by
  have hnum := toNat_eq_halves a
  rw [clzdi2, select, ofCond_and, clzsi2_eq]
  by_cases hhi : hi a = 0
  · rw [if_pos (beq_iff_eq.mpr hhi), if_pos (beq_iff_eq.mpr hhi)]
    by_cases hlo : lo a = 0
    · rw [hlo, clz_zero_word, eq_zero_of_halves hhi hlo, toNat_clz_zero]
      rfl
    · obtain ⟨h₁, h₂⟩ := clz_bounds (show lo a ≠ 0#32 from hlo)
      have hc := toNat_clz_lt (show lo a ≠ 0#32 from hlo)
      have hsum : ((lo a).clz + 32).toNat = (lo a).clz.toNat + 32 := by
        rw [BitVec.toNat_add, Nat.mod_eq_of_lt (by change _ + 32 < _; omega)]
        rfl
      have hval : a.toNat = (lo a).toNat := by
        have h0 : (hi a).toNat = 0 := by rw [hhi]; rfl
        omega
      rw [hsum]
      refine (toNat_clz_eq (by omega) ?_ ?_).symm
      · rw [hval, show 64 - 1 - ((lo a).clz.toNat + 32) = 32 - 1 - (lo a).clz.toNat by omega]
        exact h₁
      · rw [hval, show 64 - ((lo a).clz.toNat + 32) = 32 - (lo a).clz.toNat by omega]
        exact h₂
  · have hbeq : (hi a == 0) = false := beq_eq_false_iff_ne.mpr hhi
    have hc := toNat_clz_lt (show hi a ≠ 0#32 from hhi)
    rw [hbeq, if_neg (by decide), if_neg (by decide), add_zero]
    exact (toNat_clz_eq (by omega) (hi_bounds hhi).1 (hi_bounds hhi).2).symm

theorem ctzdi2_eq (a : DWord) : (ctzdi2 a).toNat = a.ctz.toNat := by
  have hnum := toNat_eq_halves a
  rw [ctzdi2, BitVec.or_comm, select, ofCond_and, ctzsi2_eq]
  by_cases hlo : lo a = 0
  · have hval : a.toNat = 2 ^ 32 * (hi a).toNat := by
      have h0 : (lo a).toNat = 0 := by rw [hlo]; rfl
      omega
    rw [if_pos (beq_iff_eq.mpr hlo), if_pos (beq_iff_eq.mpr hlo)]
    by_cases hhi : hi a = 0
    · rw [hhi, ctz_zero_word, eq_zero_of_halves hhi hlo, toNat_ctz_zero]
      rfl
    · obtain ⟨h₁, h₂⟩ := ctz_dvd (show hi a ≠ 0#32 from hhi)
      have hc := toNat_ctz_lt (show hi a ≠ 0#32 from hhi)
      have hsum : ((hi a).ctz + 32).toNat = 32 + (hi a).ctz.toNat := by
        rw [BitVec.toNat_add, Nat.mod_eq_of_lt (by change _ + 32 < _; omega), Nat.add_comm]
        rfl
      rw [hsum]
      refine (toNat_ctz_eq ?_ ?_).symm
      · rw [hval, pow_add]
        exact Nat.mul_dvd_mul_left _ h₁
      · rw [hval, Nat.add_assoc, pow_add]
        exact fun h => h₂ (Nat.dvd_of_mul_dvd_mul_left (by decide) h)
  · have hbeq : (lo a == 0) = false := beq_eq_false_iff_ne.mpr hlo
    obtain ⟨h₁, h₂⟩ := ctz_dvd (show lo a ≠ 0#32 from hlo)
    have hc := toNat_ctz_lt (show lo a ≠ 0#32 from hlo)
    have hupper {c : ℕ} (hle : c ≤ 32) : 2 ^ c ∣ a.toNat ↔ 2 ^ c ∣ (lo a).toNat := by
      rw [hnum]
      exact Nat.dvd_add_right ((pow_dvd_pow 2 hle).mul_right _)
    rw [hbeq, if_neg (by decide), if_neg (by decide), add_zero]
    exact (toNat_ctz_eq ((hupper (by omega)).mpr h₁) fun h => h₂ ((hupper (by omega)).mp h)).symm

end Double

/-- The four routines count zeros. -/
theorem zero_counts (x : Word) (a : DWord) :
    clzsi2 x = x.clz ∧ ctzsi2 x = x.ctz ∧ (clzdi2 a).toNat = a.clz.toNat ∧
      (ctzdi2 a).toNat = a.ctz.toNat :=
  ⟨clzsi2_eq x, ctzsi2_eq x, clzdi2_eq a, ctzdi2_eq a⟩

end Ysyx.Klib.Int64
