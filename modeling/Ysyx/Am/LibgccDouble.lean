import Ysyx.Am.Libgcc
import Ysyx.Klib.Int64Divide

/-! The 64-bit routines of the npc port's libgcc that work on halves: `__muldi3` (`multi3.c` with
32-bit words) and `__ashldi3`. -/

namespace Ysyx.Am.Libgcc

open Bytes Halves Rv32 ShiftArith Klib.Int64

structure MulVars where
  uLow : Word
  vLow : Word
  wLow : Word
  wHigh : Word
  wHighTmp : Word

def mulBody (t : MulVars) : MulVars :=
  let newWLow := t.wLow + t.uLow
  let wHighTmp2x := t.wHighTmp <<< 1
  let wHighTmp := t.wHighTmp + t.wHigh
  let (wLow, wHigh) :=
    if t.vLow &&& 1 ≠ 0 then
      let carry := ofCond (newWLow.ult t.wLow)
      (newWLow, carry + wHighTmp)
    else (t.wLow, t.wHigh)
  let uLowMsb := t.uLow >>> 31
  ⟨t.uLow <<< 1, t.vLow >>> 1, wLow, wHigh, uLowMsb ||| wHighTmp2x⟩

theorem mulBody_vLow (t : MulVars) : (mulBody t).vLow = t.vLow >>> 1 := by
  rw [mulBody]

theorem shiftRight_one_lt {v : Word} (h : v >>> 1 ≠ 0) : (v >>> 1).toNat < v.toNat := by
  have hne : (v >>> 1).toNat ≠ 0 := fun h0 => h (BitVec.eq_of_toNat_eq h0)
  rw [BitVec.toNat_ushiftRight, Nat.shiftRight_eq_div_pow] at hne ⊢
  omega

def mulLoop (t : MulVars) : MulVars :=
  if (mulBody t).vLow = 0 then mulBody t else mulLoop (mulBody t)
termination_by t.vLow.toNat
decreasing_by
  rename_i h
  rw [mulBody_vLow] at h ⊢
  exact shiftRight_one_lt h

/-- `__muluw3`: a multiply instruction, or a call of `__mulsi3`. -/
def muluw3 (a b : Word) : Word := a * b

def muldi3 (u v : DWord) : DWord :=
  let uu := Udwords.ofAll u
  let vv := Udwords.ofAll v
  let t := mulLoop ⟨uu.low, vv.low, 0, 0, 0⟩
  let high := if uu.high ≠ 0 then t.wHigh + muluw3 vv.low uu.high else t.wHigh
  let high := if vv.high ≠ 0 then high + muluw3 uu.low vv.high else high
  Udwords.all ⟨high, t.wLow⟩

section Mul

variable (t : MulVars)

def MulVars.sum : DWord := Udwords.all ⟨t.wHigh, t.wLow⟩

def MulVars.place : DWord := Udwords.all ⟨t.wHighTmp, t.uLow⟩

theorem setWidth_shiftRight (v : Word) : (v >>> 1).setWidth 64 = v.setWidth 64 >>> 1 := by
  apply BitVec.eq_of_toNat_eq
  rw [toNat_low, BitVec.toNat_ushiftRight, BitVec.toNat_ushiftRight, toNat_low]

theorem mulBody_place : (mulBody t).place = t.place <<< 1 := by
  have hbody : (mulBody t).place =
      Udwords.all ⟨(t.uLow >>> 31) ||| (t.wHighTmp <<< 1), t.uLow <<< 1⟩ := by
    rw [MulVars.place, mulBody]
  have h := all_shiftLeft_or ⟨t.wHighTmp, t.uLow⟩ 0
  have hzero : (0 : Word).setWidth 64 = 0 := by decide
  rw [hzero] at h
  rw [hbody, BitVec.or_comm]
  refine Eq.trans ?_ (h.trans BitVec.or_zero)
  congr 2
  exact BitVec.or_zero.symm

/-- Addition on the halves. -/
theorem all_add (h l h' l' : Word) :
    Udwords.all ⟨ofCond ((l + l').ult l) + (h' + h), l + l'⟩ =
      Udwords.all ⟨h, l⟩ + Udwords.all ⟨h', l'⟩ := by
  have hl := l.isLt
  have hl' := l'.isLt
  have hh := h.isLt
  have hh' := h'.isLt
  have hcarry : (ofCond ((l + l').ult l)).toNat = if 2 ^ 32 ≤ l.toNat + l'.toNat then 1 else 0 := by
    have hult : (l + l').ult l = decide (2 ^ 32 ≤ l.toNat + l'.toNat) := by
      rw [BitVec.ult, BitVec.toNat_add, decide_eq_decide]
      omega
    rw [hult, ofCond]
    by_cases hc : 2 ^ 32 ≤ l.toNat + l'.toNat
    · rw [if_pos (decide_eq_true hc), if_pos hc]
      rfl
    · rw [if_neg (by simpa using hc), if_neg hc]
      rfl
  apply BitVec.eq_of_toNat_eq
  rw [BitVec.toNat_add, toNat_all, toNat_all, toNat_all]
  simp only [BitVec.toNat_add, hcarry]
  split_ifs <;> omega

theorem mulBody_sum : (mulBody t).sum =
    if t.vLow.getLsbD 0 then t.sum + t.place else t.sum := by
  have hbit : t.vLow &&& 1 = 0 ↔ t.vLow.getLsbD 0 = false := by
    have h := and_lower (m := 1) (x := t.vLow) (n := 1) (by decide) (by decide)
    have hmod : t.vLow.getLsbD 0 = decide (t.vLow.toNat % 2 = 1) := by
      rw [← BitVec.testBit_toNat, Nat.testBit_zero]
    rw [h, hmod, decide_eq_false_iff_not]
    omega
  rw [MulVars.sum, mulBody]
  by_cases hv : t.vLow &&& 1 = 0
  · rw [if_neg (not_not.mpr hv), if_neg (by rw [hbit.mp hv]; decide)]
    rfl
  · rw [if_pos hv, if_pos (by simpa using mt hbit.mpr hv)]
    exact all_add t.wHigh t.wLow t.wHighTmp t.uLow

/-- One turn. -/
theorem mulBody_keeps : (mulBody t).sum + (mulBody t).vLow.setWidth 64 * (mulBody t).place =
    t.sum + t.vLow.setWidth 64 * t.place := by
  have hget : (t.vLow.setWidth 64).getLsbD 0 = t.vLow.getLsbD 0 := by
    rw [BitVec.getLsbD_setWidth]
    rfl
  rw [mul_turn t.sum, hget, mulBody_sum, mulBody_vLow, mulBody_place, setWidth_shiftRight]

/-- The loop adds up the product with the whole multiplicand. -/
theorem mulLoop_sum : (mulLoop t).sum = t.sum + t.vLow.setWidth 64 * t.place := by
  induction t using mulLoop.induct with
  | case1 t h =>
    have hzero : (0 : Word).setWidth 64 = 0 := by decide
    rw [mulLoop, if_pos h, ← mulBody_keeps, h, hzero, zero_mul, add_zero]
  | case2 t h ih => rw [mulLoop, if_neg h, ih, mulBody_keeps]

theorem all_eq_add (h l : Word) :
    Udwords.all ⟨h, l⟩ = l.setWidth 64 + 2 ^ 32 * h.setWidth 64 := by
  have hl := l.isLt
  have hh := h.isLt
  have hpow : (2 ^ 32 : DWord).toNat = 2 ^ 32 := rfl
  apply BitVec.eq_of_toNat_eq
  rw [toNat_all, BitVec.toNat_add, BitVec.toNat_mul, toNat_low, toNat_low, hpow]
  dsimp only
  omega

/-- Only the lower half of what is added to the upper half counts. -/
theorem upper_mul (x y : Word) :
    (2 ^ 32 : DWord) * (x * y).setWidth 64 = 2 ^ 32 * (x.setWidth 64 * y.setWidth 64) := by
  have hpow : (2 ^ 32 : DWord).toNat = 2 ^ 32 := rfl
  have h64 : 2 ^ 64 = 2 ^ 32 * 2 ^ 32 := by norm_num
  apply BitVec.eq_of_toNat_eq
  rw [BitVec.toNat_mul, BitVec.toNat_mul, toNat_low, BitVec.toNat_mul, BitVec.toNat_mul, toNat_low,
    toNat_low, hpow, h64, Nat.mul_mod_mul_left, Nat.mul_mod_mul_left, Nat.mod_mod, Nat.mod_mul_left_mod]

theorem upper_add (x y : Word) :
    (2 ^ 32 : DWord) * (x + y).setWidth 64 = 2 ^ 32 * x.setWidth 64 + 2 ^ 32 * y.setWidth 64 := by
  have hpow : (2 ^ 32 : DWord).toNat = 2 ^ 32 := rfl
  apply BitVec.eq_of_toNat_eq
  simp only [BitVec.toNat_mul, BitVec.toNat_add, toNat_low, hpow]
  omega

/-- Where it is a call, the code of `__mulsi3` returns its value. -/
theorem leads_muluw3 (a : Word) (x : Regs) (m : Word → Byte) :
    Leads (CodeStep a mulCode) ⟨x, slot a 0, m⟩
      (Returned x m argRegs (muluw3 (x.get Asm.a0) (x.get Asm.a1))) := leads_mulsi3

theorem muluw3_if (x y h : Word) : (if x ≠ 0 then h + muluw3 y x else h) = h + y * x := by
  split_ifs with hx
  · rfl
  · rw [not_not.mp hx, mul_zero, add_zero]

end Mul

/-- `__muldi3` gives the product. -/
theorem muldi3_eq (u v : DWord) : muldi3 u v = u * v := by
  let t := mulLoop ⟨lo u, lo v, 0, 0, 0⟩
  have hzero : (0 : Word).setWidth 64 = 0 := by decide
  have hsum : t.sum = (lo v).setWidth 64 * (lo u).setWidth 64 := by
    have h : t.sum = Udwords.all ⟨0, 0⟩ + (lo v).setWidth 64 * Udwords.all ⟨0, lo u⟩ :=
      mulLoop_sum _
    rw [h, all_eq_add, all_eq_add, hzero, mul_zero, add_zero, add_zero, zero_add]
  have hmul : muldi3 u v = Udwords.all ⟨t.wHigh + lo v * hi u + lo u * hi v, t.wLow⟩ := by
    rw [muldi3]
    simp only [muluw3_if]
    rfl
  have hwrap : (2 ^ 32 : DWord) * 2 ^ 32 = 0 := by decide
  rw [MulVars.sum, all_eq_add] at hsum
  rw [hmul, all_eq_add, upper_add, upper_add, upper_mul, upper_mul]
  nth_rewrite 3 [← all_ofAll u]
  nth_rewrite 3 [← all_ofAll v]
  rw [Udwords.ofAll, Udwords.ofAll, all_eq_add, all_eq_add]
  linear_combination hsum - hwrap * ((hi u).setWidth 64 * (hi v).setWidth 64)

def ashldi3 (u : DWord) (b : Word) : Except Undefined DWord :=
  if b = 0 then .ok u
  else
    let uu := Udwords.ofAll u
    if (32 : Word).ssubOverflow b then .error .overflow
    else
      let bm := 32 - b
      if bm.toInt ≤ 0 then do
        return Udwords.all ⟨← shl uu.low (-bm), 0⟩
      else do
        let carries ← shr uu.low bm
        let low ← shl uu.low b
        return Udwords.all ⟨(← shl uu.high b) ||| carries, low⟩

section Shift

variable (u : DWord) {b : Word}

theorem thirtyTwo_sub (h : b.toNat ≤ 32) : ((32 : Word) - b).toNat = 32 - b.toNat :=
  BitVec.toNat_sub_of_le (x := 32) h

theorem toInt_small (h : b.toNat < 64) : b.toInt = b.toNat := by
  rw [BitVec.toInt_eq_toNat_cond, if_pos (by omega)]

/-- The difference `W_TYPE_SIZE - b` and its sign. -/
theorem thirtyTwo_ssubOverflow :
    (32 : Word).ssubOverflow b = false ↔ b.toInt > 32 - 2 ^ 31 := by
  have hlo := BitVec.le_toInt b
  have hhi := BitVec.toInt_lt (x := b)
  have h32 : (32 : Word).toInt = 32 := rfl
  rw [BitVec.ssubOverflow, h32]
  simp only [Bool.or_eq_false_iff, decide_eq_false_iff_not]
  norm_num at hlo hhi ⊢
  omega

theorem bm_toInt (h : (32 : Word).ssubOverflow b = false) : (32 - b).toInt = 32 - b.toInt :=
  BitVec.toInt_sub_of_not_ssubOverflow (by rw [h]; decide)

/-- A count below the width of a word. -/
theorem ashldi3_low (h0 : b ≠ 0) (h : b.toNat < 32) : ashldi3 u b = .ok (u <<< b.toNat) := by
  have hover : (32 : Word).ssubOverflow b = false := by
    rw [thirtyTwo_ssubOverflow, toInt_small (by omega)]
    omega
  have hb0 := toNat_ne_zero h0
  have hbm : ¬ (32 - b).toInt ≤ 0 := by
    rw [bm_toInt hover, toInt_small (by omega)]
    omega
  have hsub := thirtyTwo_sub h.le
  have hq := above_q u (s := 64 - b.toNat) (by omega) (by omega)
  rw [show 64 - (64 - b.toNat) = b.toNat by omega,
    show 64 - b.toNat - 32 = 32 - b.toNat by omega] at hq
  rw [ashldi3, if_neg h0, hover, if_neg (by decide), if_neg hbm]
  simp only [bind, Except.bind, shr_ok (k := 32 - b) (by omega), shl_ok h, hsub]
  exact congrArg Except.ok hq

/-- A count that empties the lower half. -/
theorem ashldi3_high (h : 32 ≤ b.toNat) (h' : b.toNat < 64) :
    ashldi3 u b = .ok (u <<< b.toNat) := by
  have hover : (32 : Word).ssubOverflow b = false := by
    rw [thirtyTwo_ssubOverflow, toInt_small h']
    omega
  have h0 : b ≠ 0 := by
    rintro rfl
    exact absurd h (by decide)
  have hbm : (32 - b).toInt ≤ 0 := by
    rw [bm_toInt hover, toInt_small h']
    omega
  have hneg : (-(32 - b)).toNat = b.toNat - 32 := by
    rw [neg_sub, BitVec.toNat_sub_of_le (by rw [BitVec.le_def]; exact h)]
    rfl
  have hq := below_q u (s := 64 - b.toNat) (by omega)
  rw [show 64 - (64 - b.toNat) = b.toNat by omega,
    show 32 - (64 - b.toNat) = b.toNat - 32 by omega] at hq
  rw [ashldi3, if_neg h0, hover, if_neg (by decide), if_pos hbm]
  simp only [bind, Except.bind, shl_ok (k := -(32 - b)) (by omega), hneg]
  exact congrArg Except.ok hq

theorem shl_error {x k : Word} (h : 32 ≤ k.toNat) : shl x k = .error .shift :=
  if_neg (not_lt.mpr h)

theorem shr_error {x k : Word} (h : 32 ≤ k.toNat) : shr x k = .error .shift :=
  if_neg (not_lt.mpr h)

/-- Any other count is undefined. -/
theorem ashldi3_error (h : 64 ≤ b.toNat) : ∃ e, ashldi3 u b = .error e := by
  have hlt := b.isLt
  have h0 : b ≠ 0 := by
    rintro rfl
    exact absurd h (by decide)
  cases hover : (32 : Word).ssubOverflow b with
  | true => exact ⟨.overflow, by rw [ashldi3, if_neg h0, hover, if_pos rfl]⟩
  | false =>
    have hbmv := bm_toInt hover
    rw [ashldi3, if_neg h0, hover, if_neg (by decide)]
    by_cases hbm : (32 - b).toInt ≤ 0
    · have hneg : 32 ≤ (-(32 - b)).toNat := by
        rw [neg_sub, BitVec.toNat_sub_of_le (by rw [BitVec.le_def]; exact le_trans (by decide) h)]
        change 32 ≤ b.toNat - 32
        omega
      simp only [if_pos hbm, bind, Except.bind, shl_error hneg]
      exact ⟨_, rfl⟩
    · have hbig : 32 ≤ (32 - b).toNat := by
        rw [BitVec.toInt_eq_toNat_cond b] at hbmv
        rw [BitVec.toInt_eq_toNat_cond] at hbm hbmv
        split_ifs at hbm hbmv <;> omega
      simp only [if_neg hbm, bind, Except.bind, shr_error hbig]
      exact ⟨_, rfl⟩

/-- `__ashldi3` shifts by every count below 64, and is defined for no other. -/
theorem ashldi3_ok_iff (v : DWord) : ashldi3 u b = .ok v ↔ b.toNat < 64 ∧ v = u <<< b.toNat := by
  have hok (h : b.toNat < 64) : ashldi3 u b = .ok (u <<< b.toNat) := by
    by_cases h0 : b = 0
    · rw [ashldi3, if_pos h0, h0]
      exact congrArg Except.ok (BitVec.shiftLeft_zero u).symm
    · by_cases hlow : b.toNat < 32
      · exact ashldi3_low u h0 hlow
      · exact ashldi3_high u (not_lt.mp hlow) h
  constructor
  · intro h
    by_cases hlt : b.toNat < 64
    · rw [hok hlt] at h
      exact ⟨hlt, (Except.ok.inj h).symm⟩
    · obtain ⟨e, he⟩ := ashldi3_error u (not_lt.mp hlt)
      rw [he] at h
      cases h
  · rintro ⟨hlt, rfl⟩
    exact hok hlt

end Shift

/-- The product and the left shift of 64-bit words, from 32-bit operations, of which the product is
what the code of `__mulsi3` returns. -/
theorem double_ops (u v : DWord) (b : Word) :
    muldi3 u v = u * v ∧
      (∀ (a : Word) (x : Regs) (m : Word → Byte),
        Leads (CodeStep a mulCode) ⟨x, slot a 0, m⟩
          (Returned x m argRegs (muluw3 (x.get Asm.a0) (x.get Asm.a1)))) ∧
      ∀ w, ashldi3 u b = .ok w ↔ b.toNat < 64 ∧ w = u <<< b.toNat :=
  ⟨muldi3_eq u v, leads_muluw3, ashldi3_ok_iff u⟩

end Ysyx.Am.Libgcc
