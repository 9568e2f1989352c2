import Ysyx.Lib.Rv32M
import Ysyx.Nemu.InstCorrect

/-! `decode_exec` on the RV32M instructions. The table has no entry for `mulhsu`,
and the divisions are C's own, which the host defines neither for a zero divisor
nor for the quotient that overflows; everywhere else the bodies compute what the
specification gives. -/

namespace Ysyx.Nemu

open Bytes Rv32

/-- `decode_exec` leaves the specified value in `rd`, changes nothing else of the machine
and goes on with the next instruction. -/
def MeetsM (cfg : Config) (s : Decode) (m : Machine) (o : MOp) (rd rs1 rs2 : Reg) : Prop :=
  ∃ s', decodeExec cfg { s with inst := o.encode rd rs1 rs2 } m =
      .ok (s', (m.setGpr rd (o.eval (m.cpu.gpr rs1) (m.cpu.gpr rs2))).setGpr 0 0) ∧
    s'.dnpc = s.snpc

def Config.HasReg (cfg : Config) (r : Reg) : Prop := r.toNat < cfg.nrGpr

/-- The operation is in the table, and C defines it on these operands. -/
def HostDefined : MOp → Word → Word → Prop
  | .mulhsu, _, _ => False
  | .div, a, b | .rem, a, b => b ≠ 0 ∧ ¬ SignedOverflow a b
  | .divu, _, b | .remu, _, b => b ≠ 0
  | _, _, _ => True

/-- What the body of the entry assigns to `rd`. -/
def mBody : MOp → Word → Word → Except Fault Word
  | .mul, a, b => .ok (a * b)
  | .mulh, a, b => .ok (((a.signExtend 64 * b.signExtend 64).sshiftRight 32).setWidth 32)
  | .mulhsu, _, _ => .error .undefined
  | .mulhu, a, b => .ok (((a.setWidth 64 * b.setWidth 64) >>> 32).setWidth 32)
  | .div, a, b => signedDiv a b
  | .divu, a, b => unsignedDiv a b
  | .rem, a, b => signedRem a b
  | .remu, a, b => unsignedRem a b

def mName : MOp → InstName
  | .mul => .mul
  | .mulh => .mulh
  | .mulhsu => .inv
  | .mulhu => .mulhu
  | .div => .div
  | .divu => .divu
  | .rem => .rem
  | .remu => .remu

def mType : MOp → OperandType
  | .mulhsu => .N
  | _ => .R

section Bodies

variable {cfg : Config} {s : Decode} {m : Machine} {o : MOp} {rd rs1 rs2 : Reg}

theorem find_mop (o : MOp) (rd rs1 rs2 : Reg) :
    ∃ p, instpats.find? (·.hits (o.encode rd rs1 rs2)) = some p ∧
      p.name = mName o ∧ p.type = mType o := by
  rw [find_hits]
  simp only [MOp.encode, test_encodeR]
  cases o <;> exact ⟨_, rfl, rfl, rfl⟩

theorem mBody_of_hostDefined {a b : Word} (h : HostDefined o a b) :
    mBody o a b = .ok (o.eval a b) := by
  cases o with
  | mul => rw [mBody, MOp.eval, ofInt_mul_toInt]
  | mulh => rw [mBody, MOp.eval, ofInt_mulh]
  | mulhsu => exact h.elim
  | mulhu => rw [mBody, MOp.eval, ofNat_mulhu]
  | div =>
    obtain ⟨hb, hov⟩ := h
    have hc : ¬ (b = 0 ∨ a = BitVec.intMin 32 ∧ b = -1) := not_or.mpr ⟨hb, hov⟩
    rw [mBody, signedDiv, if_neg hc, MOp.eval, if_neg hb, ofInt_tdiv]
  | divu => rw [mBody, unsignedDiv, if_neg h, MOp.eval, if_neg h, ofNat_div]
  | rem =>
    obtain ⟨hb, hov⟩ := h
    have hc : ¬ (b = 0 ∨ a = BitVec.intMin 32 ∧ b = -1) := not_or.mpr ⟨hb, hov⟩
    rw [mBody, signedRem, if_neg hc, MOp.eval, if_neg hb, ofInt_tmod]
  | remu => rw [mBody, unsignedRem, if_neg h, MOp.eval, if_neg h, ofNat_mod]

theorem hostDefined_of_mBody {a b v : Word} (h : mBody o a b = .ok v) : HostDefined o a b := by
  cases o with
  | mul => trivial
  | mulh => trivial
  | mulhsu => cases h
  | mulhu => trivial
  | div =>
    rw [mBody, signedDiv] at h
    split_ifs at h with hc
    exact not_or.mp hc
  | divu =>
    rw [mBody, unsignedDiv] at h
    split_ifs at h with hc
    exact hc
  | rem =>
    rw [mBody, signedRem] at h
    split_ifs at h with hc
    exact not_or.mp hc
  | remu =>
    rw [mBody, unsignedRem] at h
    split_ifs at h with hc
    exact hc

theorem execBody_mop (s : Decode) (r : Operands) (ho : o ≠ .mulhsu) :
    execBody cfg m s r (mName o) =
      (do return (← setGpr cfg m r.rd (← mBody o r.src1 r.src2), s.dnpc)) := by
  cases o <;> first | rfl | exact absurd rfl ho

theorem gpr_ok_iff {r : Reg} {v : Word} :
    gpr cfg m r = .ok v ↔ cfg.HasReg r ∧ v = m.cpu.gpr r := by
  unfold gpr checkRegIdx Config.HasReg
  split_ifs with h <;> simp [bind, Except.bind, pure, Except.pure, h, eq_comm]

theorem setGpr_ok_iff {m' : Machine} {r : Reg} {v : Word} :
    setGpr cfg m r v = .ok m' ↔ cfg.HasReg r ∧ m' = m.setGpr r v := by
  unfold setGpr checkRegIdx Config.HasReg
  split_ifs with h <;> simp [bind, Except.bind, pure, Except.pure, h, eq_comm]

theorem hasReg_zero : cfg.HasReg 0 := by
  unfold Config.HasReg Config.nrGpr
  split_ifs <;> decide

theorem decodeExec_mop_ok (ho : o ≠ .mulhsu) {s' : Decode} {m' : Machine} :
    decodeExec cfg { s with inst := o.encode rd rs1 rs2 } m = .ok (s', m') ↔
      (cfg.HasReg rd ∧ cfg.HasReg rs1 ∧ cfg.HasReg rs2) ∧
        ∃ v, mBody o (m.cpu.gpr rs1) (m.cpu.gpr rs2) = .ok v ∧
          m' = (m.setGpr rd v).setGpr 0 0 ∧
          s' = { s with inst := o.encode rd rs1 rs2, dnpc := s.snpc } := by
  obtain ⟨p, hp, hname, htype⟩ := find_mop o rd rs1 rs2
  have hR : mType o = .R := by cases o <;> first | rfl | exact absurd rfl ho
  have h1 : (BITS (o.encode rd rs1 rs2) 19 15).setWidth 5 = rs1 := by
    rw [BITS_reg _ (by decide)]
    exact rs1_encodeR ..
  have h2 : (BITS (o.encode rd rs1 rs2) 24 20).setWidth 5 = rs2 := by
    rw [BITS_reg _ (by decide)]
    exact rs2_encodeR ..
  have h3 : (BITS (o.encode rd rs1 rs2) 11 7).setWidth 5 = rd := by
    rw [BITS_reg _ (by decide)]
    exact rd_encodeR ..
  simp only [decodeExec, hp, hname, htype, hR, decodeOperand, execBody_mop _ _ ho, h1, h2, h3]
  constructor
  · intro h
    obtain ⟨r, hr, h⟩ := bind_eq_ok.mp h
    obtain ⟨v1, hv1, hr⟩ := bind_eq_ok.mp hr
    obtain ⟨v2, hv2, hr⟩ := bind_eq_ok.mp hr
    obtain ⟨hr1, rfl⟩ := gpr_ok_iff.mp hv1
    obtain ⟨hr2, rfl⟩ := gpr_ok_iff.mp hv2
    cases hr
    obtain ⟨⟨m₁, dnpc⟩, hbody, h⟩ := bind_eq_ok.mp h
    obtain ⟨v, hv, hbody⟩ := bind_eq_ok.mp hbody
    obtain ⟨m₂, hm₂, hbody⟩ := bind_eq_ok.mp hbody
    obtain ⟨hr3, rfl⟩ := setGpr_ok_iff.mp hm₂
    cases hbody
    obtain ⟨m₃, hm₃, h⟩ := bind_eq_ok.mp h
    obtain ⟨-, rfl⟩ := setGpr_ok_iff.mp hm₃
    cases h
    exact ⟨⟨hr3, hr1, hr2⟩, v, hv, rfl, rfl⟩
  · rintro ⟨⟨hr3, hr1, hr2⟩, v, hv, rfl, rfl⟩
    have hset (q : Machine) : setGpr cfg q 0 0 = .ok (q.setGpr 0 0) :=
      setGpr_ok_iff.mpr ⟨hasReg_zero, rfl⟩
    simp only [gpr_ok_iff.mpr ⟨hr1, rfl⟩, gpr_ok_iff.mpr ⟨hr2, rfl⟩, hv,
      setGpr_ok_iff.mpr ⟨hr3, rfl⟩, hset, bind, Except.bind, pure, Except.pure]

/-- `mulhsu` is executed as an invalid instruction. -/
theorem decodeExec_mulhsu_abort {s' : Decode} {m' : Machine}
    (h : decodeExec cfg { s with inst := MOp.mulhsu.encode rd rs1 rs2 } m = .ok (s', m')) :
    m'.nemuState.state = .ABORT := by
  obtain ⟨p, hp, hname, htype⟩ := find_mop .mulhsu rd rs1 rs2
  simp only [decodeExec, hp, hname, htype, mType, mName, decodeOperand, execBody] at h
  obtain ⟨r, hr, h⟩ := bind_eq_ok.mp h
  obtain ⟨⟨m₁, dnpc⟩, hbody, h⟩ := bind_eq_ok.mp h
  obtain ⟨m₂, hm₂, hbody⟩ := bind_eq_ok.mp hbody
  obtain ⟨i1, -, hm₂⟩ := bind_eq_ok.mp hm₂
  obtain ⟨i2, -, hm₂⟩ := bind_eq_ok.mp hm₂
  cases hm₂
  cases hbody
  obtain ⟨m₃, hm₃, h⟩ := bind_eq_ok.mp h
  obtain ⟨-, rfl⟩ := setGpr_ok_iff.mp hm₃
  cases h
  rfl

end Bodies

/-- In a running machine an RV32M instruction is executed as specified exactly where its
registers exist, it is not `mulhsu`, and C defines the division. -/
theorem rv32m_meets_iff (cfg : Config) (s : Decode) (m : Machine) (o : MOp) (rd rs1 rs2 : Reg)
    (hrun : m.nemuState.state = .RUNNING) :
    MeetsM cfg s m o rd rs1 rs2 ↔
      HostDefined o (m.cpu.gpr rs1) (m.cpu.gpr rs2) ∧
        cfg.HasReg rd ∧ cfg.HasReg rs1 ∧ cfg.HasReg rs2 := by
  by_cases ho : o = .mulhsu
  · subst ho
    refine ⟨fun ⟨s', h, _⟩ => ?_, fun h => h.1.elim⟩
    have habort := decodeExec_mulhsu_abort h
    rw [setGpr_nemuState, setGpr_nemuState, hrun] at habort
    cases habort
  · constructor
    · rintro ⟨s', h, -⟩
      obtain ⟨hregs, v, hv, -, -⟩ := (decodeExec_mop_ok ho).mp h
      exact ⟨hostDefined_of_mBody hv, hregs⟩
    · rintro ⟨hdef, hregs⟩
      exact ⟨_, (decodeExec_mop_ok ho).mpr
        ⟨hregs, _, mBody_of_hostDefined hdef, rfl, rfl⟩, rfl⟩

/-- `div x1, x2, x2` with six in `x2`. -/
theorem rv32m_meets_iff_div :
    MeetsM defaultConfig resetDecode (startOf (MOp.div.encode 1 2 2) 6) .div 1 2 2 ↔
      HostDefined .div 6 6 ∧
        defaultConfig.HasReg 1 ∧ defaultConfig.HasReg 2 ∧ defaultConfig.HasReg 2 :=
  rv32m_meets_iff _ _ _ _ _ _ _ rfl

/-- The same instruction with zero in `x2` stops the host. -/
theorem div_by_zero_fails :
    ¬ ∀ (cfg : Config) (s : Decode) (m : Machine) (o : MOp) (rd rs1 rs2 : Reg), cfg.RVE = false →
      m.nemuState.state = .RUNNING → MeetsM cfg s m o rd rs1 rs2 := by
  intro h
  obtain ⟨s', hs', -⟩ := h defaultConfig resetDecode (startOf (MOp.div.encode 1 2 2) 0) .div 1 2 2
    rfl rfl
  obtain ⟨-, v, hv, -, -⟩ := (decodeExec_mop_ok (by decide)).mp hs'
  exact (hostDefined_of_mBody hv).1 rfl

end Ysyx.Nemu
