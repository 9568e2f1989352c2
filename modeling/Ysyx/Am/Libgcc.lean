import Ysyx.Lib.Rv32M
import Ysyx.Lib.ShiftArith
import Ysyx.Nemu.GuestFlow

/-! The multiplication and division routines that the npc port links for a core without the M
extension (`libgcc/muldi3.S` and `libgcc/div.S` for `__riscv_xlen == 32`), as code on NEMU. -/

namespace Ysyx.Am.Libgcc

open Bytes Nemu Rv32 Rv32.Asm ShiftArith

inductive MulLabel where
  | mulsi3 | L1 | L2
  deriving DecidableEq, Repr

def muldi3S : List (Line MulLabel) :=
  [.label .mulsi3,
   mv a2 a0,
   li a0 0,
   .label .L1,
   .insn (.opImm .andi a3 a1 1),
   beqz a3 .L2,
   .insn (.op .add a0 a0 a2),
   .label .L2,
   .insn (.shiftImm .srli a1 a1 1),
   .insn (.shiftImm .slli a2 a2 1),
   bnez a1 .L1,
   ret]

inductive DivLabel where
  | divsi3 | udivsi3 | umodsi3 | modsi3
  | L1 | L2 | L3 | L4 | L5 | L10 | L11 | L12 | L30 | L31 | L32
  deriving DecidableEq, Repr

def divS : List (Line DivLabel) :=
  [.label .divsi3,
   bltz a0 .L10,
   bltz a1 .L11,
   .label .udivsi3,
   mv a2 a1,
   mv a1 a0,
   li a0 (-1),
   beqz a2 .L5,
   li a3 1,
   bgeu a2 a1 .L2,
   .label .L1,
   blez a2 .L2,
   .insn (.shiftImm .slli a2 a2 1),
   .insn (.shiftImm .slli a3 a3 1),
   bgtu a1 a2 .L1,
   .label .L2,
   li a0 0,
   .label .L3,
   bltu a1 a2 .L4,
   .insn (.op .sub a1 a1 a2),
   .insn (.op .or a0 a0 a3),
   .label .L4,
   .insn (.shiftImm .srli a3 a3 1),
   .insn (.shiftImm .srli a2 a2 1),
   bnez a3 .L3,
   .label .L5,
   ret,
   .label .umodsi3,
   mv t0 ra,
   call .udivsi3,
   mv a0 a1,
   jr t0,
   .label .L10,
   neg a0 a0,
   bgtz a1 .L12,
   neg a1 a1,
   j .udivsi3,
   .label .L11,
   neg a1 a1,
   .label .L12,
   mv t0 ra,
   call .udivsi3,
   neg a0 a0,
   jr t0,
   .label .modsi3,
   mv t0 ra,
   bltz a1 .L31,
   bltz a0 .L32,
   .label .L30,
   call .udivsi3,
   mv a0 a1,
   jr t0,
   .label .L31,
   neg a1 a1,
   bgez a0 .L30,
   .label .L32,
   neg a0 a0,
   call .udivsi3,
   neg a0 a1,
   jr t0]

def mulCode : List Instr := assemble muldi3S

def divCode : List Instr := assemble divS

/-- `mv` and `li 0` -/
theorem add_imm_zero (v : Word) : v + (0 : BitVec 12).signExtend 32 = v := by
  rw [show (0 : BitVec 12).signExtend 32 = 0#32 from rfl, BitVec.add_zero]

/-- What a routine has done when it is back at its caller: `v` is in `a0`, and memory and the
registers other than `ws` are as they were. -/
structure Returned (x : Regs) (m : Word → Byte) (ws : List Rv32.Reg) (v : Word) (s : State) : Prop where
  pc : s.pc = x.get ra &&& ~~~1
  mem : s.mem = m
  value : Regs.get s.x a0 = v
  kept : ∀ r, r ∉ ws → Regs.get s.x r = x.get r

section Mul

variable {a : Word} {x y : Regs} {m : Word → Byte}

theorem and_one_beq_zero (v : Word) : (v &&& 1 == 0) = !v.getLsbD 0 := by
  have hbit : v.getLsbD 0 = decide (v.toNat % 2 = 1) := by
    rw [← BitVec.testBit_toNat, Nat.testBit_zero]
  rw [hbit, Bool.eq_iff_iff, beq_iff_eq, ← BitVec.toNat_inj, BitVec.toNat_and]
  change v.toNat &&& 1 = 0 ↔ _
  rw [Nat.and_one_is_mod, Bool.not_eq_true', decide_eq_false_iff_not]
  omega

/-- The registers that `__mulsi3` and `__udivsi3` write. -/
def argRegs : List Rv32.Reg := [a0, a1, a2, a3]

/-- What is known at `.L2`, from the registers at `.L1`. -/
structure Added (y z : Regs) : Prop where
  acc : z.get a0 = if (y.get a1).getLsbD 0 then y.get a0 + y.get a2 else y.get a0
  multiplier : z.get a1 = y.get a1
  multiplicand : z.get a2 = y.get a2
  kept : ∀ r, r ∉ argRegs → z.get r = y.get r

theorem leads_L2 : Leads (CodeStep a mulCode) ⟨y, slot a 2, m⟩ fun s =>
    ∃ z, s = ⟨z, slot a 5, m⟩ ∧ Added y z := by
  have hbit : (alus [.opImm .andi a3 a1 1] y).get a3 = y.get a1 &&& 1 := by
    simp (disch := decide) only [alus_cons, alus_nil, Instr.alu, Regs.get_set_self]
    rfl
  have hrest {r : Rv32.Reg} (hr : r ∉ [a3]) : (alus [.opImm .andi a3 a1 1] y).get r = y.get r :=
    alus_kept [a3] rfl y hr
  refine leads_alus [.opImm .andi a3 a1 1] rfl ⟨_, rfl⟩ ?_
  refine leads_branch (t := 5) rfl (by decide) (fun h => ?_) fun h => ?_
  all_goals rw [BOp.taken, hbit, Regs.get_zero, and_one_beq_zero] at h
  · refine .here ⟨_, rfl, ?_, hrest (by decide), hrest (by decide),
      fun r hr => alus_kept argRegs rfl y hr⟩
    rw [if_neg (by simpa using h)]
    exact hrest (by decide)
  · refine leads_alus [.op .add a0 a0 a2] rfl ⟨_, rfl⟩ (.here ⟨_, rfl, ?_, ?_, ?_, fun r hr => ?_⟩)
    · rw [if_pos (by simpa using h), ← hrest (r := a0) (by decide), ← hrest (r := a2) (by decide)]
      exact Regs.get_set_self _ _ (by decide)
    · exact (alus_kept [a0] rfl _ (by decide)).trans (hrest (by decide))
    · exact (alus_kept [a0] rfl _ (by decide)).trans (hrest (by decide))
    · exact (alus_kept argRegs rfl _ hr).trans (alus_kept argRegs rfl y hr)

/-- At `.L1`: the product that is still to be added and the sum so far make up the result. -/
structure MulInv (x : Regs) (m : Word → Byte) (a : Word) (s : State) : Prop where
  pc : s.pc = slot a 2
  mem : s.mem = m
  sum : Regs.get s.x a0 + Regs.get s.x a1 * Regs.get s.x a2 = x.get a0 * x.get a1
  kept : ∀ r, r ∉ argRegs → Regs.get s.x r = x.get r

def mulShifts : List Instr := [.shiftImm .srli a1 a1 1, .shiftImm .slli a2 a2 1]

theorem leads_mul_turn {s : State} (h : MulInv x m a s) :
    Leads (CodeStep a mulCode) s fun t => Returned x m argRegs (x.get a0 * x.get a1) t ∨
      MulInv x m a t ∧ (Regs.get t.x a1).toNat < (Regs.get s.x a1).toNat := by
  obtain ⟨y, pc, mem⟩ := s
  obtain ⟨rfl, rfl, hsum, hkept⟩ := h
  dsimp only at hsum hkept ⊢
  refine leads_L2.bind ?_
  rintro _ ⟨(z : Regs), rfl, hadd⟩
  rw [mul_turn, ← hadd.acc, ← hadd.multiplier, ← hadd.multiplicand] at hsum
  have hz0 : (alus mulShifts z).get a0 = z.get a0 := alus_kept [a1, a2] rfl z (by decide)
  have hz1 : (alus mulShifts z).get a1 = z.get a1 >>> 1 := by
    simp (disch := decide) only [mulShifts, alus_cons, alus_nil, Instr.alu, Regs.get_set_self,
      Regs.get_set_ne]
    rfl
  have hz2 : (alus mulShifts z).get a2 = z.get a2 <<< 1 := by
    simp (disch := decide) only [mulShifts, alus_cons, alus_nil, Instr.alu, Regs.get_set_self,
      Regs.get_set_ne]
    rfl
  have hz (r : Rv32.Reg) (hr : r ∉ argRegs) : (alus mulShifts z).get r = x.get r :=
    ((alus_kept argRegs rfl z hr).trans (hadd.kept r hr)).trans (hkept r hr)
  refine leads_alus mulShifts rfl ⟨_, rfl⟩ ?_
  refine leads_branch (t := 2) rfl (by decide) (fun h => ?_) fun h => ?_
  · refine .here (.inr ⟨⟨rfl, rfl, ?_, hz⟩, ?_⟩)
    · rw [hz0, hz1, hz2]
      exact hsum
    · rw [hz1, hadd.multiplier, BitVec.toNat_ushiftRight, Nat.shiftRight_eq_div_pow]
      rw [BOp.taken, hz1, hadd.multiplier, Regs.get_zero, bne_iff_ne, ne_eq, ← BitVec.toNat_inj,
        BitVec.toNat_ushiftRight, Nat.shiftRight_eq_div_pow] at h
      change _ ≠ 0 at h
      omega
  · rw [BOp.taken, hz1, Regs.get_zero, bne_eq_false_iff_eq] at h
    rw [h, zero_mul, add_zero] at hsum
    refine leads_jr rfl (.here (.inl ⟨?_, rfl, ?_, fun r hr => ?_⟩))
    · rw [hz ra (by decide)]
    · exact (Regs.get_set_ne _ _ (by decide)).trans (hz0.trans hsum)
    · by_cases hr0 : r = 0
      · rw [hr0, Regs.get_zero, Regs.get_zero]
      · exact (Regs.get_set_ne _ _ hr0).trans (hz r hr)

/-- `__mulsi3` returns the product. -/
theorem leads_mulsi3 : Leads (CodeStep a mulCode) ⟨x, slot a 0, m⟩
    (Returned x m argRegs (x.get a0 * x.get a1)) := by
  have hkept {r : Rv32.Reg} (hr : r ∉ argRegs) :
      (alus [.opImm .addi a2 a0 0, .opImm .addi a0 0 0] x).get r = x.get r :=
    alus_kept argRegs rfl x hr
  refine leads_alus [.opImm .addi a2 a0 0, .opImm .addi a0 0 0] rfl ⟨_, rfl⟩ ?_
  refine Leads.loop (I := MulInv x m a) (fun s => (Regs.get s.x a1).toNat)
    (fun t ht => leads_mul_turn ht) ⟨rfl, rfl, ?_, fun r hr => hkept hr⟩
  simp (disch := decide) only [alus_cons, alus_nil, Instr.alu, Regs.get_set_self, Regs.get_set_ne,
    Regs.get_zero, IOp.eval, add_imm_zero]
  rw [zero_add, mul_comm]

end Mul

section Udiv

variable {a : Word} {x : Regs} {m : Word → Byte}

/-- The registers at `.L1`, once the divisor has been shifted up by `j`. -/
structure Shifted (x : Regs) (j : ℕ) (y : Regs) : Prop where
  dividend : y.get a1 = x.get a0
  divisor : (y.get a2).toNat = 2 ^ j * (x.get a1).toNat
  weight : (y.get a3).toNat = 2 ^ j
  kept : ∀ r, r ∉ argRegs → y.get r = x.get r

/-- The registers in the loop of `.L3`: the divisor is shifted up by `j`, and the bits of the
quotient from `i` on are known. -/
structure Dividing (x : Regs) (i j : ℕ) (y : Regs) : Prop where
  div : DivDown (x.get a0).toNat (x.get a1).toNat i (y.get a0).toNat (y.get a1).toNat
  divisor : (y.get a2).toNat = 2 ^ j * (x.get a1).toNat
  weight : (y.get a3).toNat = 2 ^ j
  kept : ∀ r, r ∉ argRegs → y.get r = x.get r

/-- The registers once all bits of the quotient are known. -/
structure AllBits (x y : Regs) : Prop where
  div : DivDown (x.get a0).toNat (x.get a1).toNat 0 (y.get a0).toNat (y.get a1).toNat
  kept : ∀ r, r ∉ argRegs → y.get r = x.get r

/-- What `__udivsi3` returns: also the remainder, in `a1`. -/
structure Divided (x : Regs) (m : Word → Byte) (s : State) : Prop
    extends Returned x m argRegs (MOp.eval .divu (x.get a0) (x.get a1)) s where
  remainder : Regs.get s.x a1 = MOp.eval .remu (x.get a0) (x.get a1)

theorem toNat_shl_one {v : Word} (h : v.toNat < 2 ^ 31) : (v <<< 1).toNat = 2 * v.toNat := by
  rw [BitVec.toNat_shiftLeft, Nat.shiftLeft_eq, Nat.mod_eq_of_lt (by omega)]
  omega

theorem toNat_shr_one (v : Word) : (v >>> 1).toNat = v.toNat / 2 := by
  rw [BitVec.toNat_ushiftRight, Nat.shiftRight_eq_div_pow, pow_one]

/-- `blez` on a value that is not zero. -/
theorem sle_zero_iff {v : Word} (h : v.toNat ≠ 0) : v.sle 0 = true ↔ 2 ^ 31 ≤ v.toNat := by
  rw [BitVec.sle_iff_toInt_le, BitVec.toInt_eq_toNat_cond]
  change (if 2 * v.toNat < 2 ^ 32 then _ else _) ≤ (0 : ℤ) ↔ _
  have := v.isLt
  split_ifs <;> omega

def divShiftsUp : List Instr := [.shiftImm .slli a2 a2 1, .shiftImm .slli a3 a3 1]

/-- One turn of `.L1`. -/
theorem leads_L1_turn (hB : (x.get a1).toNat ≠ 0) {j : ℕ} {y : Regs} (h : Shifted x j y) :
    Leads (CodeStep a divCode) ⟨y, slot a 8, m⟩ fun t =>
      (∃ j y, t = ⟨y, slot a 12, m⟩ ∧ Shifted x j y ∧
        (x.get a0).toNat < 2 ^ (j + 1) * (x.get a1).toNat) ∨
      (∃ j y, t = ⟨y, slot a 8, m⟩ ∧ Shifted x j y) ∧
        2 ^ 32 - (Regs.get t.x a2).toNat < 2 ^ 32 - (y.get a2).toNat := by
  have hpos : 0 < 2 ^ j * (x.get a1).toNat := Nat.mul_pos (Nat.two_pow_pos j) (by omega)
  have htwice : 2 ^ (j + 1) * (x.get a1).toNat = 2 * (2 ^ j * (x.get a1).toNat) := by ring
  have hA := (x.get a0).isLt
  have h2 := h.divisor
  refine leads_branch (t := 12) rfl (by decide) (fun hsgn => ?_) fun hsgn => ?_
  all_goals rw [BOp.taken, Regs.get_zero] at hsgn
  · rw [sle_zero_iff (by omega)] at hsgn
    exact .here (.inl ⟨j, y, rfl, h, by omega⟩)
  · rw [← Bool.not_eq_true, sle_zero_iff (by omega), not_le] at hsgn
    have hz1 : (alus divShiftsUp y).get a1 = y.get a1 := alus_kept [a2, a3] rfl y (by decide)
    have hz2 : (alus divShiftsUp y).get a2 = y.get a2 <<< 1 := by
      simp (disch := decide) only [divShiftsUp, alus_cons, alus_nil, Instr.alu, Regs.get_set_self,
        Regs.get_set_ne]
      rfl
    have hz3 : (alus divShiftsUp y).get a3 = y.get a3 <<< 1 := by
      simp (disch := decide) only [divShiftsUp, alus_cons, alus_nil, Instr.alu, Regs.get_set_self,
        Regs.get_set_ne]
      rfl
    have hpow : 2 ^ j ≤ 2 ^ j * (x.get a1).toNat := Nat.le_mul_of_pos_right _ (by omega)
    have h2' : ((alus divShiftsUp y).get a2).toNat = 2 ^ (j + 1) * (x.get a1).toNat := by
      rw [hz2, toNat_shl_one hsgn, h2, htwice]
    have hz : Shifted x (j + 1) (alus divShiftsUp y) := by
      refine ⟨hz1.trans h.dividend, h2', ?_, fun r hr => (alus_kept argRegs rfl y hr).trans (h.kept r hr)⟩
      rw [hz3, toNat_shl_one (by have := h.weight; omega), h.weight, pow_succ, Nat.mul_comm]
    refine leads_alus divShiftsUp rfl ⟨_, rfl⟩ ?_
    refine leads_branch (t := 8) rfl (by decide) (fun hlt => ?_) fun hlt => ?_
    · exact .here (.inr ⟨⟨j + 1, _, rfl, hz⟩, by dsimp only; omega⟩)
    · refine .here (.inl ⟨j + 1, _, rfl, hz, ?_⟩)
      rw [BOp.taken, hz.dividend, ← Bool.not_eq_true, BitVec.ult_iff_lt, BitVec.lt_def, h2'] at hlt
      rw [pow_succ, Nat.mul_right_comm]
      omega

/-- The subtraction between `.L3` and `.L4`. -/
theorem leads_L4 {j : ℕ} {y : Regs} (h : Dividing x (j + 1) j y) :
    Leads (CodeStep a divCode) ⟨y, slot a 13, m⟩ fun s =>
      ∃ z, s = ⟨z, slot a 16, m⟩ ∧ Dividing x j j z := by
  refine leads_branch (t := 16) rfl (by decide) (fun hlt => ?_) fun hlt => ?_
  all_goals rw [BOp.taken] at hlt
  · rw [BitVec.ult_iff_lt, BitVec.lt_def, h.divisor] at hlt
    exact .here ⟨y, rfl, h.div.skip hlt, h.divisor, h.weight, h.kept⟩
  · rw [← Bool.not_eq_true, BitVec.ult_iff_lt, BitVec.lt_def, not_lt, h.divisor] at hlt
    have hz0 : (alus [.op .sub a1 a1 a2, .op .or a0 a0 a3] y).get a0 = y.get a0 ||| y.get a3 := by
      simp (disch := decide) only [alus_cons, alus_nil, Instr.alu, Regs.get_set_self,
        Regs.get_set_ne]
      rfl
    have hz1 : (alus [.op .sub a1 a1 a2, .op .or a0 a0 a3] y).get a1 = y.get a1 - y.get a2 := by
      simp (disch := decide) only [alus_cons, alus_nil, Instr.alu, Regs.get_set_self,
        Regs.get_set_ne]
      rfl
    have hz {r : Rv32.Reg} (hr : r ∉ [a0, a1]) :
        (alus [.op .sub a1 a1 a2, .op .or a0 a0 a3] y).get r = y.get r := alus_kept [a0, a1] rfl y hr
    refine leads_alus [.op .sub a1 a1 a2, .op .or a0 a0 a3] rfl ⟨_, rfl⟩
      (.here ⟨_, rfl, ?_, ?_, ?_, fun r hr => (alus_kept argRegs rfl y hr).trans (h.kept r hr)⟩)
    · rw [hz0, hz1, BitVec.toNat_or, h.weight, h.div.or_eq_add,
        BitVec.toNat_sub_of_le (by rw [BitVec.le_def, h.divisor]; exact hlt), h.divisor]
      exact h.div.take hlt
    · rw [hz (by decide), h.divisor]
    · rw [hz (by decide), h.weight]

def divShiftsDown : List Instr := [.shiftImm .srli a3 a3 1, .shiftImm .srli a2 a2 1]

/-- One turn of `.L3`: the loop ends with the last bit of the quotient. -/
theorem leads_L3_turn {j : ℕ} {y : Regs} (h : Dividing x (j + 1) j y) :
    Leads (CodeStep a divCode) ⟨y, slot a 13, m⟩ fun t =>
      (∃ z, t = ⟨z, slot a 19, m⟩ ∧ AllBits x z) ∨
      (∃ j z, t = ⟨z, slot a 13, m⟩ ∧ Dividing x (j + 1) j z) ∧
        (Regs.get t.x a3).toNat < (y.get a3).toNat := by
  refine (leads_L4 h).bind ?_
  rintro _ ⟨(z : Regs), rfl, hz⟩
  have hs0 : (alus divShiftsDown z).get a0 = z.get a0 := alus_kept [a2, a3] rfl z (by decide)
  have hs1 : (alus divShiftsDown z).get a1 = z.get a1 := alus_kept [a2, a3] rfl z (by decide)
  have hs2 : (alus divShiftsDown z).get a2 = z.get a2 >>> 1 := by
    simp (disch := decide) only [divShiftsDown, alus_cons, alus_nil, Instr.alu, Regs.get_set_self,
      Regs.get_set_ne]
    rfl
  have hs3 : (alus divShiftsDown z).get a3 = z.get a3 >>> 1 := by
    simp (disch := decide) only [divShiftsDown, alus_cons, alus_nil, Instr.alu, Regs.get_set_self,
      Regs.get_set_ne]
    rfl
  have hs (r : Rv32.Reg) (hr : r ∉ argRegs) : (alus divShiftsDown z).get r = x.get r :=
    (alus_kept argRegs rfl z hr).trans (hz.kept r hr)
  have hw : ((alus divShiftsDown z).get a3).toNat = 2 ^ j / 2 := by
    rw [hs3, toNat_shr_one, hz.weight]
  refine leads_alus divShiftsDown rfl ⟨_, rfl⟩ ?_
  refine leads_branch (t := 13) rfl (by decide) (fun hne => ?_) fun hne => ?_
  all_goals rw [BOp.taken, Regs.get_zero] at hne
  · rw [bne_iff_ne, ne_eq, ← BitVec.toNat_inj, hw] at hne
    change _ ≠ 0 at hne
    obtain ⟨i, rfl⟩ : ∃ i, j = i + 1 := by
      cases j with
      | zero => exact absurd rfl hne
      | succ i => exact ⟨i, rfl⟩
    have hhalf : 2 ^ (i + 1) / 2 = 2 ^ i := by rw [pow_succ, Nat.mul_div_cancel _ (by decide)]
    refine .here (.inr ⟨⟨i, _, rfl, ?_, ?_, hw.trans hhalf, hs⟩, ?_⟩)
    · rw [hs0, hs1]
      exact hz.div
    · rw [hs2, toNat_shr_one, hz.divisor, pow_succ, Nat.mul_right_comm,
        Nat.mul_div_cancel _ (by decide)]
    · dsimp only
      rw [hw, h.weight]
      omega
  · rw [bne_eq_false_iff_eq, ← BitVec.toNat_inj, hw] at hne
    change _ = 0 at hne
    obtain rfl : j = 0 := by
      cases j with
      | zero => rfl
      | succ i =>
        rw [pow_succ, Nat.mul_div_cancel _ (by decide)] at hne
        exact absurd hne (Nat.two_pow_pos i).ne'
    refine .here (.inl ⟨_, rfl, ⟨?_, hs⟩⟩)
    rw [hs0, hs1]
    exact hz.div

/-- From `.L2` on, with the divisor shifted up far enough. -/
theorem leads_L5 {j : ℕ} {y : Regs} (h : Shifted x j y)
    (hup : (x.get a0).toNat < 2 ^ (j + 1) * (x.get a1).toNat) :
    Leads (CodeStep a divCode) ⟨y, slot a 12, m⟩ fun t =>
      ∃ z, t = ⟨z, slot a 19, m⟩ ∧ AllBits x z := by
  have hz0 : (alus [.opImm .addi a0 0 0] y).get a0 = 0 := by
    simp (disch := decide) only [alus_cons, alus_nil, Instr.alu, Regs.get_set_self, Regs.get_zero,
      IOp.eval, add_imm_zero]
  have hz {r : Rv32.Reg} (hr : r ∉ [a0]) : (alus [.opImm .addi a0 0 0] y).get r = y.get r :=
    alus_kept [a0] rfl y hr
  refine leads_alus [.opImm .addi a0 0 0] rfl ⟨_, rfl⟩ ?_
  refine Leads.loop (I := fun t => ∃ j z, t = ⟨z, slot a 13, m⟩ ∧ Dividing x (j + 1) j z)
    (fun t => (Regs.get t.x a3).toNat) ?_ ⟨j, _, rfl, ?_, ?_, ?_, fun r hr => ?_⟩
  · rintro _ ⟨i, z, rfl, hz⟩
    exact leads_L3_turn hz
  · rw [hz0, hz (by decide), h.dividend]
    exact .start hup
  · rw [hz (by decide), h.divisor]
  · rw [hz (by decide), h.weight]
  · exact (alus_kept argRegs rfl y hr).trans (h.kept r hr)

theorem leads_ret {y : Regs} (hq : y.get a0 = MOp.eval .divu (x.get a0) (x.get a1))
    (hr : y.get a1 = MOp.eval .remu (x.get a0) (x.get a1))
    (hy : ∀ r, r ∉ argRegs → y.get r = x.get r) :
    Leads (CodeStep a divCode) ⟨y, slot a 19, m⟩ (Divided x m) := by
  have hset {r : Rv32.Reg} : (y.set 0 0).get r = y.get r := by
    by_cases hr0 : r = 0
    · rw [hr0, Regs.get_zero, Regs.get_zero]
    · exact Regs.get_set_ne _ _ hr0
  exact leads_jr rfl (.here ⟨⟨by rw [hy ra (by decide)], rfl, hset.trans hq,
    fun r hr => hset.trans (hy r hr)⟩, hset.trans hr⟩)

/-- `__udivsi3` returns the quotient, and leaves the remainder. -/
theorem leads_udivsi3 : Leads (CodeStep a divCode) ⟨x, slot a 2, m⟩ (Divided x m) := by
  let part : List Instr := [.opImm .addi a2 a1 0, .opImm .addi a1 a0 0, .opImm .addi a0 0 (-1)]
  have hx0 : (alus part x).get a0 = -1 := by
    simp (disch := decide) only [part, alus_cons, alus_nil, Instr.alu, Regs.get_set_self,
      Regs.get_zero]
    rfl
  have hx1 : (alus part x).get a1 = x.get a0 := by
    simp (disch := decide) only [part, alus_cons, alus_nil, Instr.alu, Regs.get_set_self,
      Regs.get_set_ne, IOp.eval, add_imm_zero]
  have hx2 : (alus part x).get a2 = x.get a1 := by
    simp (disch := decide) only [part, alus_cons, alus_nil, Instr.alu, Regs.get_set_self,
      Regs.get_set_ne, IOp.eval, add_imm_zero]
  have hx (r : Rv32.Reg) (hr : r ∉ argRegs) : (alus part x).get r = x.get r :=
    alus_kept argRegs rfl x hr
  refine leads_alus part rfl ⟨_, rfl⟩ ?_
  refine leads_branch (t := 19) rfl (by decide) (fun hzero => ?_) fun hzero => ?_
  all_goals rw [BOp.taken, hx2, Regs.get_zero] at hzero
  · rw [beq_iff_eq] at hzero
    refine leads_ret ?_ ?_ hx
    · rw [hx0, MOp.eval, if_pos hzero]
    · rw [hx1, MOp.eval, if_pos hzero]
  · rw [beq_eq_false_iff_ne] at hzero
    have hB : (x.get a1).toNat ≠ 0 := fun h => hzero (BitVec.eq_of_toNat_eq h)
    have hstart : Shifted x 0 (alus [.opImm .addi a3 0 1] (alus part x)) := by
      have hk {r : Rv32.Reg} (hr : r ∉ [a3]) :
          (alus [.opImm .addi a3 0 1] (alus part x)).get r = (alus part x).get r :=
        alus_kept [a3] rfl _ hr
      refine ⟨(hk (by decide)).trans hx1, ?_, ?_, fun r hr => (alus_kept argRegs rfl _ hr).trans (hx r hr)⟩
      · rw [hk (by decide), hx2, pow_zero, Nat.one_mul]
      · simp (disch := decide) only [alus_cons, alus_nil, Instr.alu, Regs.get_set_self,
          Regs.get_zero]
        rfl
    have hdone : Leads (CodeStep a divCode)
        ⟨alus [.opImm .addi a3 0 1] (alus part x), slot a 7, m⟩ fun t =>
        ∃ j y, t = ⟨y, slot a 12, m⟩ ∧ Shifted x j y ∧
          (x.get a0).toNat < 2 ^ (j + 1) * (x.get a1).toNat := by
      refine leads_branch (t := 12) rfl (by decide) (fun hle => ?_) fun hle => ?_
      · rw [BOp.taken, hstart.dividend, BitVec.ule_iff_le, BitVec.le_def, hstart.divisor] at hle
        exact .here ⟨0, _, rfl, hstart, by omega⟩
      · refine Leads.loop (I := fun t => ∃ j y, t = ⟨y, slot a 8, m⟩ ∧ Shifted x j y)
          (fun t => 2 ^ 32 - (Regs.get t.x a2).toNat) ?_ ⟨0, _, rfl, hstart⟩
        rintro _ ⟨j, y, rfl, hy⟩
        exact leads_L1_turn hB hy
    refine leads_alus [.opImm .addi a3 0 1] rfl ⟨_, rfl⟩ (hdone.bind ?_)
    rintro _ ⟨j, y, rfl, hy, hup⟩
    refine (leads_L5 hy hup).bind ?_
    rintro _ ⟨z, rfl, hdiv, hz⟩
    obtain ⟨hq, hr⟩ := hdiv.done
    refine leads_ret ?_ ?_ hz
    · rw [MOp.eval, if_neg hzero, ← hq, BitVec.ofNat_toNat, BitVec.setWidth_eq]
    · rw [MOp.eval, if_neg hzero, ← hr, BitVec.ofNat_toNat, BitVec.setWidth_eq]

end Udiv

end Ysyx.Am.Libgcc
