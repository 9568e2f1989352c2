import Ysyx.Klib.Int64Divide

/-! The signed divisions of klib: they truncate towards zero, and are undefined only where the
divisor is zero or an operand has no negative. -/

namespace Ysyx.Klib.Int64

open Bytes Halves

/-- What `x >> 63` gives: all bits, or none. -/
def signMask (c : Bool) : DWord := if c then BitVec.allOnes 64 else 0

section Negation

variable (x : DWord) (c : Bool)

theorem xor_sub_signMask : (x ^^^ signMask c) - signMask c = if c then -x else x := by
  cases c with
  | true =>
    have hones : BitVec.allOnes 64 = -1#64 := by decide
    rw [signMask, if_pos rfl, if_pos rfl, BitVec.xor_allOnes, BitVec.not_eq_neg_add, hones,
      sub_neg_eq_add, sub_add_cancel]
  | false =>
    have hzero : x ^^^ (0 : DWord) = x := BitVec.xor_zero
    rw [signMask, if_neg (by decide), if_neg (by decide), hzero, sub_zero]

theorem xor_signMask (d : Bool) : signMask c ^^^ signMask d = signMask (c ^^ d) := by
  cases c <;> cases d <;> decide

theorem signedSub_signMask : signedSub (x ^^^ signMask c) (signMask c) =
    if c ∧ x = BitVec.intMin 64 then .error .overflow else .ok (if c then -x else x) := by
  have hover : (x ^^^ signMask c).ssubOverflow (signMask c) =
      decide (c = true ∧ x = BitVec.intMin 64) := by
    rw [Bool.eq_iff_iff, decide_eq_true_iff, BitVec.ssubOverflow, Bool.or_eq_true,
      decide_eq_true_iff, decide_eq_true_iff]
    cases c with
    | true =>
      have hnot : (~~~x).toInt = -x.toInt - 1 := by
        have hx := x.isLt
        rw [BitVec.toInt_eq_toNat_cond, BitVec.toInt_eq_toNat_cond, BitVec.toNat_not]
        split_ifs <;> omega
      have hmin : x = BitVec.intMin 64 ↔ x.toInt = -2 ^ 63 := by
        rw [← BitVec.toInt_inj]
        rfl
      have hlo := BitVec.le_toInt x
      have hhi := BitVec.toInt_lt (x := x)
      have hones : (BitVec.allOnes 64).toInt = -1 := rfl
      rw [signMask, if_pos rfl, BitVec.xor_allOnes, hnot, hmin, hones]
      norm_num at hlo hhi ⊢
      omega
    | false =>
      have hlo := BitVec.le_toInt x
      have hhi := BitVec.toInt_lt (x := x)
      have hzero : x ^^^ (0 : DWord) = x := BitVec.xor_zero
      have hz : (0 : DWord).toInt = 0 := rfl
      rw [signMask, if_neg (by decide), hzero, hz]
      norm_num at hlo hhi ⊢
      omega
  rw [signedSub, hover, xor_sub_signMask]
  simp only [decide_eq_true_eq]

theorem sshiftRight_eq_signMask : x.sshiftRight 63 = signMask x.msb := sshiftRight_sign x

theorem signedSub_sign : signedSub (x ^^^ signMask x.msb) (signMask x.msb) =
    if x = BitVec.intMin 64 then .error .overflow else .ok x.abs := by
  rw [signedSub_signMask, BitVec.abs]
  by_cases hx : x = BitVec.intMin 64
  · rw [if_pos ⟨by rw [hx]; decide, hx⟩, if_pos hx]
  · rw [if_neg fun h => hx h.2, if_neg hx]
    rfl

end Negation

section Signed

variable (a b : DWord)

theorem abs_eq_zero {x : DWord} : x.abs = 0 ↔ x = 0 := by
  rw [BitVec.abs]
  split_ifs
  · exact BitVec.neg_eq_zero_iff
  · rfl

theorem sdiv_eq_abs : a.sdiv b = if a.msb ^^ b.msb then -(a.abs / b.abs) else a.abs / b.abs := by
  rw [BitVec.sdiv_eq, BitVec.abs, BitVec.abs]
  cases a.msb <;> cases b.msb <;> rfl

theorem srem_eq_abs : a.srem b = if a.msb then -(a.abs % b.abs) else a.abs % b.abs := by
  rw [BitVec.srem_eq, BitVec.abs, BitVec.abs]
  cases a.msb <;> cases b.msb <;> rfl

/-- An operand with no negative, or a divisor that is zero. -/
def signedFault : Option Undefined :=
  if a = BitVec.intMin 64 ∨ b = BitVec.intMin 64 then some .overflow
  else if b = 0 then some .divide
  else none

theorem divdi3_eq : divdi3 a b = (signedFault a b).elim (.ok (a.sdiv b)) .error := by
  rw [divdi3, sshiftRight_eq_signMask, sshiftRight_eq_signMask, signedSub_sign, signedSub_sign,
    signedFault]
  by_cases ha : a = BitVec.intMin 64
  · rw [if_pos ha, if_pos (Or.inl ha)]
    rfl
  by_cases hb : b = BitVec.intMin 64
  · rw [if_neg ha, if_pos hb, if_pos (Or.inr hb)]
    rfl
  rw [if_neg ha, if_neg hb, if_neg (not_or.mpr ⟨ha, hb⟩)]
  simp only [bind, Except.bind, udivmoddi4_eq, abs_eq_zero, xor_signMask]
  split_ifs with h0
  · rfl
  · rw [sdiv_eq_abs, ← xor_sub_signMask]
    rfl

theorem abs_toNat_lt {x : DWord} (hx : x ≠ BitVec.intMin 64) : x.abs.toNat < 2 ^ 63 := by
  have hlt := x.isLt
  have hne : x.toNat ≠ 2 ^ 63 := fun h => hx (BitVec.eq_of_toNat_eq h)
  rw [BitVec.toNat_abs, BitVec.msb_eq_decide]
  split_ifs with h <;> rw [decide_eq_true_iff] at h <;> omega

theorem moddi3_unfold : moddi3 a b =
    signedSub (b ^^^ signMask b.msb) (signMask b.msb) >>= fun d =>
    signedSub (a ^^^ signMask a.msb) (signMask a.msb) >>= fun n =>
    udivmoddi4 n d >>= fun r => signedSub (r.2 ^^^ signMask a.msb) (signMask a.msb) := by
  rw [moddi3, sshiftRight_eq_signMask, sshiftRight_eq_signMask]

theorem moddi3_eq : moddi3 a b = (signedFault a b).elim (.ok (a.srem b)) .error := by
  rw [moddi3_unfold, signedSub_sign, signedSub_sign, signedFault]
  by_cases hb : b = BitVec.intMin 64
  · rw [if_pos hb, if_pos (Or.inr hb)]
    rfl
  by_cases ha : a = BitVec.intMin 64
  · rw [if_neg hb, if_pos ha, if_pos (Or.inl ha)]
    rfl
  rw [if_neg hb, if_neg ha, if_neg (not_or.mpr ⟨ha, hb⟩)]
  simp only [bind, Except.bind, udivmoddi4_eq, abs_eq_zero]
  split_ifs with h0
  · rfl
  · have hsmall : a.abs % b.abs ≠ BitVec.intMin 64 := by
      intro h
      have hval : (a.abs % b.abs).toNat = 2 ^ 63 := congrArg BitVec.toNat h
      rw [BitVec.toNat_umod] at hval
      have := Nat.mod_le a.abs.toNat b.abs.toNat
      have := abs_toNat_lt ha
      omega
    simp only
    rw [signedSub_signMask, if_neg fun h => hsmall h.2, srem_eq_abs]
    rfl

variable {a b}

theorem signedSub_ok {x y : DWord} {z : ℤ} (hz : x.toInt - y.toInt = z) (hlo : -2 ^ 63 ≤ z)
    (hhi : z < 2 ^ 63) : signedSub x y = .ok (x - y) ∧ (x - y).toInt = z := by
  have hover : ¬ x.ssubOverflow y := by
    rw [BitVec.ssubOverflow, hz]
    simp only [Bool.or_eq_true, decide_eq_true_eq, not_or, ge_iff_le, not_le, not_lt]
    exact ⟨hhi, hlo⟩
  exact ⟨if_neg hover, by rw [BitVec.toInt_sub_of_not_ssubOverflow hover, hz]⟩

theorem signedMul_ok {x y : DWord} {z : ℤ} (hz : x.toInt * y.toInt = z) (hlo : -2 ^ 63 ≤ z)
    (hhi : z < 2 ^ 63) : signedMul x y = .ok (x * y) ∧ (x * y).toInt = z := by
  have hover : ¬ x.smulOverflow y := by
    rw [BitVec.smulOverflow, hz]
    simp only [Bool.or_eq_true, decide_eq_true_eq, not_or, ge_iff_le, not_le, not_lt]
    exact ⟨hhi, hlo⟩
  exact ⟨if_neg hover, by rw [BitVec.toInt_mul_of_not_smulOverflow hover, hz]⟩

theorem tmod_between (m n : ℤ) :
    (0 ≤ m ∧ 0 ≤ m.tmod n ∧ m.tmod n ≤ m) ∨ (m ≤ 0 ∧ m.tmod n ≤ 0 ∧ m ≤ m.tmod n) := by
  have habs : (m.tmod n).natAbs ≤ m.natAbs := by
    rw [Int.natAbs_tmod]
    exact Nat.mod_le _ _
  rcases le_total 0 m with h | h
  · have := Int.tmod_nonneg n h
    omega
  · have hneg := Int.tmod_nonneg n (show 0 ≤ -m by omega)
    rw [Int.neg_tmod] at hneg
    omega

theorem divmoddi4_rem (ha : a ≠ BitVec.intMin 64) :
    signedMul (a.sdiv b) b = .ok (a.sdiv b * b) ∧
      signedSub a (a.sdiv b * b) = .ok (a.srem b) := by
  have hlo := BitVec.le_toInt a
  have hhi := BitVec.toInt_lt (x := a)
  norm_num at hlo hhi
  have hdiv : (a.sdiv b).toInt = a.toInt.tdiv b.toInt :=
    BitVec.toInt_sdiv_of_ne_or_ne a b (Or.inl ha)
  have hrem := Int.tdiv_mul_add_tmod a.toInt b.toInt
  have hrange := tmod_between a.toInt b.toInt
  obtain ⟨hmul, hmulv⟩ := signedMul_ok (x := a.sdiv b) (y := b)
    (z := a.toInt - a.toInt.tmod b.toInt) (by rw [hdiv]; omega) (by omega) (by omega)
  obtain ⟨hsub, hsubv⟩ := signedSub_ok (x := a) (y := a.sdiv b * b) (z := a.toInt.tmod b.toInt)
    (by rw [hmulv]; omega) (by omega) (by omega)
  refine ⟨hmul, hsub.trans (congrArg Except.ok (BitVec.eq_of_toInt_eq ?_))⟩
  rw [hsubv, BitVec.toInt_srem]

variable (a b)

theorem divmoddi4_eq :
    divmoddi4 a b = (signedFault a b).elim (.ok (a.sdiv b, a.srem b)) .error := by
  rw [divmoddi4, divdi3_eq]
  cases hf : signedFault a b with
  | some u => rfl
  | none =>
    have ha : a ≠ BitVec.intMin 64 := by
      rintro rfl
      rw [signedFault, if_pos (Or.inl rfl)] at hf
      cases hf
    obtain ⟨hmul, hsub⟩ := divmoddi4_rem (b := b) ha
    simp only [Option.elim, bind, Except.bind, hmul, hsub]
    rfl

/-- The three signed divisions. -/
theorem signed_divisions : divdi3 a b = (signedFault a b).elim (.ok (a.sdiv b)) .error ∧
    moddi3 a b = (signedFault a b).elim (.ok (a.srem b)) .error ∧
    divmoddi4 a b = (signedFault a b).elim (.ok (a.sdiv b, a.srem b)) .error :=
  ⟨divdi3_eq a b, moddi3_eq a b, divmoddi4_eq a b⟩

end Signed

end Ysyx.Klib.Int64
