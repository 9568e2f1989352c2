import Ysyx.Lib.Rv32

/-! The multiply and divide instructions of the RISC-V M extension on 32-bit
registers: their encodings and the values that the unprivileged specification
gives them, as integers. -/

namespace Ysyx.Rv32

open Bytes

inductive MOp where
  | mul | mulh | mulhsu | mulhu | div | divu | rem | remu
  deriving DecidableEq, Repr

def MOp.funct3 : MOp → BitVec 3
  | .mul => 0b000
  | .mulh => 0b001
  | .mulhsu => 0b010
  | .mulhu => 0b011
  | .div => 0b100
  | .divu => 0b101
  | .rem => 0b110
  | .remu => 0b111

def MOp.encode (o : MOp) (rd rs1 rs2 : Reg) : Word := encodeR 1 rs2 rs1 o.funct3 rd 0b0110011

/-- The upper products round towards minus infinity and the quotients towards zero. -/
def MOp.eval : MOp → Word → Word → Word
  | .mul, a, b => BitVec.ofInt 32 (a.toInt * b.toInt)
  | .mulh, a, b => BitVec.ofInt 32 (a.toInt * b.toInt / 2 ^ 32)
  | .mulhsu, a, b => BitVec.ofInt 32 (a.toInt * b.toNat / 2 ^ 32)
  | .mulhu, a, b => BitVec.ofNat 32 (a.toNat * b.toNat / 2 ^ 32)
  | .div, a, b => if b = 0 then -1 else BitVec.ofInt 32 (a.toInt.tdiv b.toInt)
  | .divu, a, b => if b = 0 then -1 else BitVec.ofNat 32 (a.toNat / b.toNat)
  | .rem, a, b => if b = 0 then a else BitVec.ofInt 32 (a.toInt.tmod b.toInt)
  | .remu, a, b => if b = 0 then a else BitVec.ofNat 32 (a.toNat % b.toNat)

/-- The one signed division whose quotient does not fit in a register. -/
def SignedOverflow (a b : Word) : Prop := a = BitVec.intMin 32 ∧ b = -1

instance (a b : Word) : Decidable (SignedOverflow a b) := inferInstanceAs (Decidable (_ ∧ _))

example : MOp.eval .div (BitVec.intMin 32) (-1) = BitVec.intMin 32 := by decide

example : MOp.eval .rem (BitVec.intMin 32) (-1) = 0 := by decide

theorem ofInt_mul_toInt (a b : Word) : BitVec.ofInt 32 (a.toInt * b.toInt) = a * b := by
  rw [BitVec.ofInt_mul, BitVec.ofInt_toInt, BitVec.ofInt_toInt]

theorem ofInt_tdiv (a b : Word) : BitVec.ofInt 32 (a.toInt.tdiv b.toInt) = a.sdiv b := by
  apply BitVec.eq_of_toInt_eq
  rw [BitVec.toInt_ofInt, BitVec.toInt_sdiv]

theorem ofInt_tmod (a b : Word) : BitVec.ofInt 32 (a.toInt.tmod b.toInt) = a.srem b := by
  rw [← BitVec.toInt_srem, BitVec.ofInt_toInt]

theorem ofNat_div (a b : Word) : BitVec.ofNat 32 (a.toNat / b.toNat) = a / b := by
  rw [← BitVec.toNat_udiv, BitVec.ofNat_toNat, BitVec.setWidth_eq]

theorem ofNat_mod (a b : Word) : BitVec.ofNat 32 (a.toNat % b.toNat) = a % b := by
  rw [← BitVec.toNat_umod, BitVec.ofNat_toNat, BitVec.setWidth_eq]

theorem toInt_mul_signExtend (a b : Word) :
    (a.signExtend 64 * b.signExtend 64).toInt = a.toInt * b.toInt := by
  have ha : |a.toInt| ≤ 2 ^ 31 := by
    rw [abs_le]
    exact ⟨BitVec.le_toInt a, (BitVec.toInt_lt (x := a)).le⟩
  have hb : |b.toInt| ≤ 2 ^ 31 := by
    rw [abs_le]
    exact ⟨BitVec.le_toInt b, (BitVec.toInt_lt (x := b)).le⟩
  have hprod : |a.toInt * b.toInt| ≤ 2 ^ 31 * 2 ^ 31 := by
    rw [abs_mul]
    exact mul_le_mul ha hb (abs_nonneg _) (by norm_num)
  obtain ⟨hlo, hhi⟩ := abs_le.mp hprod
  rw [BitVec.toInt_mul, BitVec.toInt_signExtend_of_le (by decide),
    BitVec.toInt_signExtend_of_le (by decide)]
  exact Int.bmod_eq_of_le (by norm_num at hlo ⊢; linarith) (by norm_num at hhi ⊢; linarith)

theorem setWidth_eq_ofInt (x : BitVec 64) : x.setWidth 32 = BitVec.ofInt 32 x.toInt := by
  apply BitVec.eq_of_toInt_eq
  rw [BitVec.toInt_ofInt, BitVec.toInt_setWidth, BitVec.toInt_eq_toNat_bmod]
  exact (Int.bmod_bmod_of_dvd (by norm_num)).symm

theorem ofInt_mulh (a b : Word) : BitVec.ofInt 32 (a.toInt * b.toInt / 2 ^ 32) =
    ((a.signExtend 64 * b.signExtend 64).sshiftRight 32).setWidth 32 := by
  rw [setWidth_eq_ofInt, BitVec.toInt_sshiftRight, toInt_mul_signExtend, Int.shiftRight_eq_div_pow]
  norm_num

theorem ofNat_mulhu (a b : Word) : BitVec.ofNat 32 (a.toNat * b.toNat / 2 ^ 32) =
    ((a.setWidth 64 * b.setWidth 64) >>> 32).setWidth 32 := by
  have ha := a.isLt
  have hb := b.isLt
  have hprod : a.toNat * b.toNat < 2 ^ 64 :=
    calc a.toNat * b.toNat < 2 ^ 32 * 2 ^ 32 := Nat.mul_lt_mul'' ha hb
      _ = 2 ^ 64 := by norm_num
  apply BitVec.eq_of_toNat_eq
  rw [BitVec.toNat_ofNat, BitVec.toNat_setWidth, BitVec.toNat_ushiftRight, BitVec.toNat_mul,
    BitVec.toNat_setWidth_of_le (by decide), BitVec.toNat_setWidth_of_le (by decide),
    Nat.mod_eq_of_lt hprod, Nat.shiftRight_eq_div_pow]

end Ysyx.Rv32
