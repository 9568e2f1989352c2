import Ysyx.Lib.Division
import Ysyx.Lib.Halves
import Ysyx.Nemu.Inst64

/-! The values that the riscv64 bodies compute. Many are computed on low halves or with counts below
32; for each of them the operands are given on which this makes no difference. -/

namespace Ysyx.Nemu.Riscv64

open Bytes Division Halves Rv32

def OpAgree : ROp → DWord → DWord → Prop
  | .sll, a, b => ShlAgree a (b.toNat % 64)
  | .srl, a, b => ShrAgree a (b.toNat % 64)
  | .sra, a, b => SarAgree a (b.toNat % 64)
  | .slt, a, b => SignedAgree a b
  | .sltu, a, b => UnsignedAgree a b
  | _, _, _ => True

/-- The host can divide the low halves. -/
def LowDefined : MOp → DWord → DWord → Prop
  | .div, a, b | .rem, a, b => lo b ≠ 0 ∧ ¬ SignedOverflow (lo a) (lo b)
  | .remu, _, b => lo b ≠ 0
  | _, _, _ => True

/-- How far the product lies above the one of the low halves, without its lower word: such a product
that is negative is taken as unsigned. -/
def MulhAgree (a b : DWord) : Prop :=
  let p := (lo a).toInt * (lo b).toInt
  let d := a.toInt * b.toInt - 2 ^ 32 * (p - p % 2 ^ 32)
  if p < 0 then 2 ^ 96 ≤ d ∧ d < 2 ^ 96 + 2 ^ 64 else 0 ≤ d ∧ d < 2 ^ 64

/-- Magnitudes of the low halves and of the operands, and signs unless the quotient is zero. -/
def DivAgree (a b : DWord) : Prop :=
  QuotAgree (lo a).toInt.natAbs (lo b).toInt.natAbs a.toInt.natAbs b.toInt.natAbs ∧
    ((lo a).toInt.natAbs < (lo b).toInt.natAbs ∨ ((lo a).msb = (lo b).msb ↔ a.msb = b.msb))

def RemainderAgree (a b : DWord) : Prop :=
  RemAgree (lo a).toInt.natAbs (lo b).toInt.natAbs a.toInt.natAbs b.toInt.natAbs ∧
    ((lo b).toInt.natAbs ∣ (lo a).toInt.natAbs ∨ (lo a).msb = a.msb)

def MopAgree : MOp → DWord → DWord → Prop
  | .mulh, a, b => MulhAgree a b
  | .div, a, b => DivAgree a b
  | .divu, a, b => hi a = 0 ∨ a < b
  | .rem, a, b => RemainderAgree a b
  | .remu, a, b => RemAgree (lo a).toNat (lo b).toNat a.toNat b.toNat
  | _, _, _ => True

def ImmAgree : IOp → DWord → DWord → Prop
  | .sltiu, a, b => UnsignedAgree a b
  | _, _, _ => True

def ShiftAgree : ShOp → DWord → BitVec 6 → Prop
  | .srai, a, n => SarAgree a n.toNat
  | _, _, _ => True

def BranchAgree : BOp → DWord → DWord → Prop
  | .blt, a, b | .bge, a, b => SignedAgree a b
  | .bltu, a, b | .bgeu, a, b => UnsignedAgree a b
  | _, _, _ => True

/-- What the body of the entry assigns to `rd`. -/
def opBody : ROp → DWord → DWord → Except Fault DWord
  | .add, a, b => .ok (a + b)
  | .sub, a, b => .ok (a - b)
  | .sll, a, b => shl64 a (BITS64 b 4 0)
  | .slt, a, b => .ok (ofBool ((lo a).slt (lo b)))
  | .sltu, a, b => .ok (ofBool ((lo a).ult (lo b)))
  | .xor, a, b => .ok (a ^^^ b)
  | .srl, a, b => do return (← shr (lo a) (lo (BITS64 b 4 0))).setWidth 64
  | .sra, a, b => sra64 a (BITS64 b 4 0)
  | .or, a, b => .ok (a ||| b)
  | .and, a, b => .ok (a &&& b)

/-- The table has neither `mulhsu` nor `mulhu`. -/
def mopBody : MOp → DWord → DWord → Except Fault DWord
  | .mul, a, b => .ok (a * b)
  | .mulh, a, b =>
    .ok (((lo a).signExtend 64 * (lo b).signExtend 64).sshiftRight 32 &&& BITMASK 32)
  | .mulhsu, _, _ | .mulhu, _, _ => .error .undefined
  | .div, a, b => do return (← signedDiv (lo a) (lo b)).signExtend 64
  | .divu, a, b => if b = 0 then .error .trap else .ok ((lo a).setWidth 64 / b)
  | .rem, a, b => do return (← signedRem (lo a) (lo b)).signExtend 64
  | .remu, a, b => do return (← unsignedRem (lo a) (lo b)).setWidth 64

/-- The table has neither `slti` nor `ori`. -/
def iopBody : IOp → DWord → DWord → DWord
  | .sltiu, a, b => ofBool ((lo a).ult (lo b))
  | .andi, a, b => b &&& a
  | o, a, b => Rv64.iopEval o a b

def shBody : ShOp → DWord → DWord → Except Fault DWord
  | .slli, a, n => shl64 a n
  | .srli, a, n => shr64 a ((lo n).setWidth 64)
  | .srai, a, n => sra64 a (BITS64 n 4 0)

def branchTest : BOp → DWord → DWord → Bool
  | .beq, a, b => a == b
  | .bne, a, b => a != b
  | .blt, a, b => (lo a).slt (lo b)
  | .bge, a, b => (lo b).sle (lo a)
  | .bltu, a, b => (lo a).ult (lo b)
  | .bgeu, a, b => (lo b).ule (lo a)

section Values

variable {a b : DWord}

theorem toNat_low5 (x : DWord) : (BITS64 x 4 0).toNat = x.toNat % 32 := by
  rw [BITS64, BitVec.ushiftRight_zero, BitVec.toNat_and]
  exact Nat.and_two_pow_sub_one_eq_mod x.toNat 5

theorem ofBool_eq_iff {p q : Bool} : ofBool p = ofBool q ↔ p = q := by
  cases p <;> cases q <;> decide

theorem sext_bit31 (a : DWord) :
    SEXT (BITS64 a 31 31) 1 = if (lo a).msb then BitVec.allOnes 64 else 0 := by
  have hbit : (BITS64 a 31 31).setWidth 1 = BitVec.ofBool (lo a).msb := by
    apply BitVec.eq_of_getLsbD_eq
    intro k hk
    have h0 : k = 0 := by omega
    subst h0
    rw [msb_lo, BITS64, BitVec.getLsbD_setWidth, BitVec.getLsbD_and, BitVec.getLsbD_ushiftRight,
      getLsbD_BITMASK _ _ (by decide)]
    simp
  rw [SEXT, hbit]
  cases (lo a).msb <;> decide

theorem sra64_eq {n : DWord} {k : ℕ} (hn : n.toNat = k % 32) : sra64 a n = .ok (sarLo a k) := by
  have hlt : k % 32 < 32 := Nat.mod_lt _ (by decide)
  have hsub : ((32 : DWord) - n).toNat = 32 - k % 32 := by
    rw [BitVec.toNat_sub, hn]
    change (2 ^ 64 - k % 32 + 32) % 2 ^ 64 = _
    omega
  have hshl : shl64 (SEXT (BITS64 a 31 31) 1) (32 - n) =
      .ok (SEXT (BITS64 a 31 31) 1 <<< (32 - k % 32)) := by
    rw [shl64, hsub, if_pos (by omega)]
  have hshr : shr64 a n = .ok (a >>> (k % 32)) := by
    rw [shr64, hn, if_pos (by omega)]
  rw [sra64, hshl, hshr, sext_bit31]
  rfl

/-- A body of an `OP` entry gets to a value, which is the one specified where the operands agree. -/
theorem opBody_ok (o : ROp) (a b : DWord) :
    ∃ v, opBody o a b = .ok v ∧ (v = Rv64.ropEval o a b ↔ OpAgree o a b) := by
  have hmod : b.toNat % 64 % 32 = b.toNat % 32 := Nat.mod_mod_of_dvd _ (by decide)
  have hlt : b.toNat % 64 < 64 := Nat.mod_lt _ (by decide)
  have h5 := toNat_low5 b
  cases o with
  | sll =>
    refine ⟨a <<< (b.toNat % 32), ?_, ?_⟩
    · rw [opBody, shl64, h5, if_pos (by omega)]
    · rw [← hmod]
      exact shl_mod_iff hlt
  | srl =>
    have hcount : (lo (BITS64 b 4 0)).toNat = b.toNat % 32 := by
      rw [toNat_lo, h5]
      omega
    refine ⟨(lo a >>> (b.toNat % 32)).setWidth 64, ?_, ?_⟩
    · rw [opBody, shr, hcount, if_pos (by omega)]
      rfl
    · rw [← hmod]
      exact shr_lo_iff hlt
  | sra => exact ⟨_, sra64_eq (h5.trans hmod.symm), sarLo_iff hlt⟩
  | slt => exact ⟨_, rfl, ofBool_eq_iff.trans slt_lo_iff⟩
  | sltu => exact ⟨_, rfl, ofBool_eq_iff.trans ult_lo_iff⟩
  | _ => exact ⟨_, rfl, iff_of_true rfl trivial⟩

theorem iopBody_iff (o : IOp) (a b : DWord) :
    iopBody o a b = Rv64.iopEval o a b ↔ ImmAgree o a b := by
  cases o with
  | sltiu => exact ofBool_eq_iff.trans ult_lo_iff
  | andi => exact iff_of_true (BitVec.and_comm b a) trivial
  | _ => exact iff_of_true rfl trivial

theorem branchTest_iff (o : BOp) (a b : DWord) :
    branchTest o a b = Rv64.taken o a b ↔ BranchAgree o a b := by
  have hnot {p q : Bool} : (!p) = (!q) ↔ p = q := by cases p <;> cases q <;> decide
  cases o with
  | blt => exact slt_lo_iff
  | bge =>
    rw [branchTest, Rv64.taken, BitVec.sle_eq_not_slt, BitVec.sle_eq_not_slt, hnot]
    exact slt_lo_iff
  | bltu => exact ult_lo_iff
  | bgeu =>
    rw [branchTest, Rv64.taken, BitVec.ule_eq_not_ult, BitVec.ule_eq_not_ult, hnot]
    exact ult_lo_iff
  | _ => exact iff_of_true rfl trivial

/-- The table has only shifts by less than 32; the body of `srai` looks at no more of the immediate
than that. -/
theorem shBody_ok (o : ShOp) (a : DWord) {n : DWord} {k : BitVec 6} (hk : k.toNat < 32)
    (hn : if o = .srai then n.toNat % 32 = k.toNat else n.toNat = k.toNat) :
    ∃ v, shBody o a n = .ok v ∧ (v = Rv64.shEval o a k ↔ ShiftAgree o a k) := by
  cases o with
  | slli =>
    have hn : n.toNat = k.toNat := hn
    refine ⟨a <<< k.toNat, ?_, iff_of_true rfl trivial⟩
    rw [shBody, shl64, hn, if_pos (by omega)]
  | srli =>
    have hn : n.toNat = k.toNat := hn
    have hcount : ((lo n).setWidth 64).toNat = k.toNat := by
      rw [BitVec.toNat_setWidth_of_le (by decide : 32 ≤ 64), toNat_lo, hn]
      omega
    refine ⟨a >>> k.toNat, ?_, iff_of_true rfl trivial⟩
    rw [shBody, shr64, hcount, if_pos (by omega)]
  | srai =>
    have hn : n.toNat % 32 = k.toNat := hn
    have hcount : (BITS64 n 4 0).toNat = k.toNat % 32 := by
      rw [toNat_low5, hn, Nat.mod_eq_of_lt hk]
    exact ⟨_, sra64_eq hcount, sarLo_iff (by omega)⟩

theorem and_BITMASK32 (x : DWord) : x &&& BITMASK 32 = BitVec.ofInt 64 (x.toInt % 2 ^ 32) := by
  have hx := x.isLt
  have hmask : (x &&& BITMASK 32).toNat = x.toNat % 2 ^ 32 := by
    rw [BitVec.toNat_and]
    exact Nat.and_two_pow_sub_one_eq_mod x.toNat 32
  have hint : x.toInt % 2 ^ 32 = ((x.toNat % 2 ^ 32 : ℕ) : ℤ) := by
    rw [BitVec.toInt_eq_toNat_cond]
    split_ifs <;> push_cast <;> omega
  apply BitVec.eq_of_toNat_eq
  rw [hmask, hint, BitVec.toNat_ofInt]
  omega

theorem mulh_range (a b : DWord) :
    -2 ^ 63 ≤ a.toInt * b.toInt / 2 ^ 64 ∧ a.toInt * b.toInt / 2 ^ 64 < 2 ^ 63 := by
  have ha : |a.toInt| ≤ 2 ^ 63 := by
    rw [abs_le]
    exact ⟨BitVec.le_toInt a, (BitVec.toInt_lt (x := a)).le⟩
  have hb : |b.toInt| ≤ 2 ^ 63 := by
    rw [abs_le]
    exact ⟨BitVec.le_toInt b, (BitVec.toInt_lt (x := b)).le⟩
  have hprod : |a.toInt * b.toInt| ≤ 2 ^ 63 * 2 ^ 63 := by
    rw [abs_mul]
    exact mul_le_mul ha hb (abs_nonneg _) (by norm_num)
  obtain ⟨hlo, hhi⟩ := abs_le.1 hprod
  constructor <;> omega

theorem toInt_range (x : DWord) : -2 ^ 63 ≤ x.toInt ∧ x.toInt < 2 ^ 63 :=
  ⟨BitVec.le_toInt x, BitVec.toInt_lt⟩

theorem mulh_agree_iff : (lo a).toInt * (lo b).toInt / 2 ^ 32 % 2 ^ 32 = a.toInt * b.toInt / 2 ^ 64 ↔
    MulhAgree a b := by
  have hbound : |(lo a).toInt * (lo b).toInt| ≤ 2 ^ 31 * 2 ^ 31 := by
    have habs (x : Word) : |x.toInt| ≤ 2 ^ 31 := by
      rw [abs_le]
      exact ⟨BitVec.le_toInt x, (BitVec.toInt_lt (x := x)).le⟩
    rw [abs_mul]
    exact mul_le_mul (habs _) (habs _) (abs_nonneg _) (by norm_num)
  obtain ⟨hlo, hhi⟩ := abs_le.1 hbound
  unfold MulhAgree
  dsimp only
  generalize (lo a).toInt * (lo b).toInt = p at hlo hhi
  generalize a.toInt * b.toInt = q
  split_ifs <;> omega

theorem mulh_eq_iff : ((lo a).signExtend 64 * (lo b).signExtend 64).sshiftRight 32 &&& BITMASK 32 =
    Rv64.mopEval .mulh a b ↔ MopAgree .mulh a b := by
  have htmp : (((lo a).signExtend 64 * (lo b).signExtend 64).sshiftRight 32).toInt =
      (lo a).toInt * (lo b).toInt / 2 ^ 32 := by
    rw [BitVec.toInt_sshiftRight, toInt_mul_signExtend, Int.shiftRight_eq_div_pow]
    norm_num
  rw [and_BITMASK32, htmp, Rv64.mopEval, ofInt_eq_ofInt_iff (by omega) (mulh_range a b), MopAgree,
    mulh_agree_iff]

theorem toInt_ne_zero {n : ℕ} {x : BitVec n} (h : x ≠ 0) : x.toInt ≠ 0 :=
  fun he => h (BitVec.eq_of_toInt_eq (he.trans (BitVec.toInt_zero).symm))

theorem msb_eq_iff {m n : ℕ} (x : BitVec m) (y : BitVec n) :
    x.msb = y.msb ↔ (x.toInt < 0 ↔ y.toInt < 0) := by
  rw [BitVec.msb_eq_toInt, BitVec.msb_eq_toInt, decide_eq_decide]

theorem natAbs_lo_le : (lo b).toInt.natAbs ≤ b.toInt.natAbs := by
  have hb := toInt_eq_halves b
  have hlo := (lo b).isLt
  have hcond := BitVec.toInt_eq_toNat_cond (lo b)
  split_ifs at hcond <;> omega

theorem div_eq_iff (hlow : LowDefined .div a b) (hb : b ≠ 0)
    (hover : ¬ (a = BitVec.intMin 64 ∧ b = -1)) :
    ((lo a).sdiv (lo b)).signExtend 64 = Rv64.mopEval .div a b ↔ MopAgree .div a b := by
  have hq := BitVec.toInt_sdiv_of_ne_or_ne a b (not_and_or.1 hover)
  have hql := BitVec.toInt_sdiv_of_ne_or_ne (lo a) (lo b) (not_and_or.1 hlow.2)
  rw [Rv64.mopEval, if_neg hb, signExtend_eq_ofInt_iff (hq ▸ toInt_range _), hql, MopAgree, DivAgree,
    tdiv_eq_tdiv_iff (toInt_ne_zero hlow.1) (toInt_ne_zero hb), msb_eq_iff, msb_eq_iff]

theorem rem_eq_iff (hlow : lo b ≠ 0) (hb : b ≠ 0) :
    ((lo a).srem (lo b)).signExtend 64 = Rv64.mopEval .rem a b ↔ MopAgree .rem a b := by
  have hr := BitVec.toInt_srem a b
  rw [Rv64.mopEval, if_neg hb, signExtend_eq_ofInt_iff (hr ▸ toInt_range _), BitVec.toInt_srem,
    MopAgree, RemainderAgree, tmod_eq_tmod_iff (toInt_ne_zero hlow) natAbs_lo_le, msb_eq_iff]

/-- Of the two quotients by `b`, only the one of the low half forgets the upper one. -/
theorem divu_agree_iff (hb : b ≠ 0) :
    (lo a).toNat / b.toNat = a.toNat / b.toNat ↔ hi a = 0 ∨ a < b := by
  have ha := toNat_eq_halves a
  have hlo := (lo a).isLt
  have hpos : 0 < b.toNat := Nat.pos_of_ne_zero fun h => hb (BitVec.eq_of_toNat_eq h)
  rw [BitVec.lt_def]
  constructor
  · intro he
    by_contra hne
    obtain ⟨hhi, hle⟩ := not_or.1 hne
    have hhi : (hi a).toNat ≠ 0 := fun h => hhi (BitVec.eq_of_toNat_eq h)
    -- the quotient is positive, so that `b` is below `2 ^ 32`, and one more fits
    have hq : 0 < a.toNat / b.toNat := Nat.div_pos (by omega) hpos
    have hblo : b.toNat ≤ (lo a).toNat := by
      by_contra hlt
      rw [Nat.div_eq_of_lt (by omega)] at he
      omega
    have hmore : (lo a).toNat / b.toNat + 1 ≤ a.toNat / b.toNat := by
      rw [← Nat.add_div_right _ hpos]
      exact Nat.div_le_div_right (by omega)
    omega
  · rintro (hhi | hlt)
    · have hzero : (hi a).toNat = 0 := congrArg BitVec.toNat hhi
      rw [ha, hzero, Nat.mul_zero, Nat.zero_add]
    · rw [Nat.div_eq_of_lt hlt, Nat.div_eq_of_lt (by omega)]

theorem divu_eq_iff (hb : b ≠ 0) :
    (lo a).setWidth 64 / b = Rv64.mopEval .divu a b ↔ MopAgree .divu a b := by
  have hle := Nat.div_le_self a.toNat b.toNat
  have ha := a.isLt
  rw [Rv64.mopEval, if_neg hb, ← BitVec.toNat_inj, BitVec.toNat_udiv, BitVec.toNat_ofNat,
    BitVec.toNat_setWidth_of_le (by decide : 32 ≤ 64), Nat.mod_eq_of_lt (by omega), MopAgree,
    divu_agree_iff hb]

theorem remu_eq_iff (hlow : lo b ≠ 0) (hb : b ≠ 0) :
    ((lo a) % (lo b)).setWidth 64 = Rv64.mopEval .remu a b ↔ MopAgree .remu a b := by
  have hlt : a.toNat % b.toNat < 2 ^ 64 := (Nat.mod_le _ _).trans_lt a.isLt
  have hval : (BitVec.ofNat 64 (a.toNat % b.toNat)).toNat = a.toNat % b.toNat := by
    rw [BitVec.toNat_ofNat, Nat.mod_eq_of_lt hlt]
  have hpos : 0 < (lo b).toNat := Nat.pos_of_ne_zero fun h => hlow (BitVec.eq_of_toNat_eq h)
  have hle : (lo b).toNat ≤ b.toNat := by
    rw [toNat_lo]
    exact Nat.mod_le _ _
  rw [Rv64.mopEval, if_neg hb, ← BitVec.toNat_inj, BitVec.toNat_setWidth_of_le (by decide : 32 ≤ 64),
    BitVec.toNat_umod, hval, MopAgree, mod_eq_mod_iff hpos hle]

/-- Where the host can divide, a body of the M entries gets to a value, which is the one specified
where the operands agree. -/
theorem mopBody_ok {o : MOp} (hin : o ≠ .mulhsu ∧ o ≠ .mulhu) (hdef : Rv64.divDefined o a b)
    (hlow : LowDefined o a b) :
    ∃ v, mopBody o a b = .ok v ∧ (v = Rv64.mopEval o a b ↔ MopAgree o a b) := by
  cases o with
  | mul =>
    refine ⟨_, rfl, iff_of_true ?_ trivial⟩
    rw [Rv64.mopEval, BitVec.ofInt_mul, BitVec.ofInt_toInt, BitVec.ofInt_toInt]
  | mulh => exact ⟨_, rfl, mulh_eq_iff⟩
  | mulhsu => exact absurd rfl hin.1
  | mulhu => exact absurd rfl hin.2
  | div =>
    refine ⟨((lo a).sdiv (lo b)).signExtend 64, ?_, div_eq_iff hlow hdef.1 hdef.2⟩
    have hc : ¬ (lo b = 0 ∨ lo a = BitVec.intMin 32 ∧ lo b = -1) := not_or.2 hlow
    rw [mopBody, signedDiv, if_neg hc]
    rfl
  | divu => exact ⟨_, if_neg hdef, divu_eq_iff hdef⟩
  | rem =>
    refine ⟨((lo a).srem (lo b)).signExtend 64, ?_, rem_eq_iff hlow.1 hdef.1⟩
    have hc : ¬ (lo b = 0 ∨ lo a = BitVec.intMin 32 ∧ lo b = -1) := not_or.2 hlow
    rw [mopBody, signedRem, if_neg hc]
    rfl
  | remu =>
    refine ⟨((lo a) % (lo b)).setWidth 64, ?_, remu_eq_iff hlow hdef⟩
    rw [mopBody, unsignedRem, if_neg (show lo b ≠ 0 from hlow)]
    rfl

/-- Elsewhere it traps. -/
theorem lowDefined_of_mopBody {o : MOp} {v : DWord} (h : mopBody o a b = .ok v) :
    LowDefined o a b := by
  cases o with
  | div =>
    obtain ⟨q, hq, -⟩ := bind_eq_ok.1 h
    unfold signedDiv at hq
    split_ifs at hq with hc
    exact not_or.1 hc
  | rem =>
    obtain ⟨q, hq, -⟩ := bind_eq_ok.1 h
    unfold signedRem at hq
    split_ifs at hq with hc
    exact not_or.1 hc
  | remu =>
    obtain ⟨q, hq, -⟩ := bind_eq_ok.1 h
    unfold unsignedRem at hq
    split_ifs at hq with hc
    exact hc
  | _ => trivial

end Values

end Ysyx.Nemu.Riscv64
