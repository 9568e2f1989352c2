import Ysyx.Nemu.Decode

/-! `isa_exec_once` against the RV32I specification. The interpreter agrees with
it on every encoding except the three register shifts, which use the whole of
`src2` as a C shift count and are defined only while it is below 32. -/

namespace Ysyx.Nemu

open Bytes Rv32

/-- The architectural state of the machine about to run the instruction at `pc`. -/
def Machine.arch (m : Machine) (pc : Word) : State := ⟨m.cpu.gpr, pc, m.mem.view⟩

/-- One call leaves the registers, `s->dnpc` and memory that the specification
gives, and nothing else of the machine changes. -/
def MeetsSpec (cfg : Config) (s : Decode) (m : Machine) (i : Instr) : Prop :=
  ∃ s' m', isaExecOnce cfg s m = .ok (s', m') ∧
    m'.arch s'.dnpc = i.exec (m.arch s.pc) ∧
    m' = { m with cpu := { m.cpu with gpr := m'.cpu.gpr }, mem := m'.mem }

/-- The count of a register shift is one that C defines. -/
def ShiftInRange (m : Machine) : Instr → Prop
  | .op .sll _ _ rs2 | .op .srl _ _ rs2 | .op .sra _ _ rs2 => (m.cpu.gpr rs2).toNat < 32
  | _ => True

/-- The access of the instruction, if it makes one, is inside flash or SRAM. -/
def AccessOk (cfg : Config) (s : State) (i : Instr) : Prop :=
  ∀ a n, i.access s = some (a, n) → InMem cfg a n

section Steps

variable {cfg : Config} {s : Decode} {m : Machine}

def operands (m : Machine) (i : Instr) : Operands :=
  let w := i.encode
  match instType i with
  | .R => ⟨rd w, m.cpu.gpr (rs1 w), m.cpu.gpr (rs2 w), 0⟩
  | .I => ⟨rd w, m.cpu.gpr (rs1 w), 0, immI w⟩
  | .S => ⟨rd w, m.cpu.gpr (rs1 w), m.cpu.gpr (rs2 w), immS w⟩
  | .B => ⟨rd w, m.cpu.gpr (rs1 w), m.cpu.gpr (rs2 w), immB w⟩
  | .U => ⟨rd w, 0, 0, immU w⟩
  | .J => ⟨rd w, 0, 0, immJ w⟩
  | .N => ⟨rd w, 0, 0, 0⟩

theorem gpr_ok (hrve : cfg.RVE = false) (r : Reg) : gpr cfg m r = .ok (m.cpu.gpr r) := by
  rw [gpr, checkRegIdx_ok hrve]
  rfl

theorem setGpr_ok (hrve : cfg.RVE = false) (r : Reg) (v : Word) :
    setGpr cfg m r v = .ok (m.setGpr r v) := by
  rw [setGpr, checkRegIdx_ok hrve]
  rfl

theorem gpr_low {r : Reg} (h : r.toNat < 16) : gpr cfg m r = .ok (m.cpu.gpr r) := by
  rw [gpr, checkRegIdx_low cfg h]
  rfl

theorem setGpr_low {r : Reg} (h : r.toNat < 16) (v : Word) :
    setGpr cfg m r v = .ok (m.setGpr r v) := by
  rw [setGpr, checkRegIdx_low cfg h]
  rfl

theorem decodeOperand_encode (hrve : cfg.RVE = false) (i : Instr) :
    decodeOperand cfg m i.encode (instType i) = .ok (operands m i) := by
  simp only [decodeOperand, operands, BITS_reg _ (show 19 - 15 + 1 = 5 by decide),
    BITS_reg _ (show 24 - 20 + 1 = 5 by decide), BITS_reg _ (show 11 - 7 + 1 = 5 by decide),
    gpr_ok hrve]
  cases instType i <;> rfl

theorem isaExecOnce_find {w : Word} {p : Instpat} (hfetch : vaddrIfetch cfg m.mem s.snpc 4 = .ok w)
    (hp : instpats.find? (·.hits w) = some p) :
    isaExecOnce cfg s m = (do
      let s : Decode := { s with inst := w, snpc := s.snpc + 4, dnpc := s.snpc + 4 }
      let o ← decodeOperand cfg m w p.type
      let (m, dnpc) ← execBody cfg m s o p.name
      return ({ s with dnpc := dnpc }, ← setGpr cfg m 0 0)) := by
  simp only [isaExecOnce, hfetch, decodeExec, bind, Except.bind, hp]

def fetched (s : Decode) (i : Instr) : Decode :=
  { s with inst := i.encode, snpc := s.snpc + 4, dnpc := s.snpc + 4 }

theorem isaExecOnce_encode (hrve : cfg.RVE = false) (i : Instr)
    (hfetch : vaddrIfetch cfg m.mem s.snpc 4 = .ok i.encode) :
    isaExecOnce cfg s m =
      (execBody cfg m (fetched s i) (operands m i) (instName i)).map fun r =>
          ({ fetched s i with dnpc := r.2 }, r.1.setGpr 0 0) := by
  obtain ⟨p, hp, hname, htype⟩ := find_encode i
  rw [isaExecOnce_find hfetch hp]
  simp only [bind, Except.bind, hname, htype, decodeOperand_encode hrve, setGpr_ok hrve, fetched]
  cases execBody cfg m { s with inst := i.encode, snpc := s.snpc + 4, dnpc := s.snpc + 4 }
    (operands m i) (instName i) <;> rfl

theorem setGpr_zero (r : Reg) (v : Word) (pc : Word) :
    ((m.setGpr r v).setGpr 0 0).arch pc = { m.arch pc with x := ((m.arch pc).write r v).x } := by
  ext q
  · simp only [Machine.arch, setGpr_gpr, State.write, Function.update_apply]
  all_goals rfl

theorem setGpr_zero_self (h0 : m.cpu.gpr 0 = 0) : m.setGpr 0 0 = m := by
  have : Function.update m.cpu.gpr 0 0 = m.cpu.gpr := by
    rw [← h0, Function.update_eq_self]
  simp only [Machine.setGpr, this]

theorem read_eq (h0 : m.cpu.gpr 0 = 0) (r : Reg) (pc : Word) : (m.arch pc).read r = m.cpu.gpr r := by
  simp only [State.read, Machine.arch]
  split_ifs with h
  · rw [h, h0]
  · rfl

theorem meetsSpec_assign (hrve : cfg.RVE = false) {i : Instr} {r : Reg} {v d : Word}
    (hfetch : vaddrIfetch cfg m.mem s.snpc 4 = .ok i.encode)
    (hbody : execBody cfg m (fetched s i) (operands m i) (instName i) = .ok (m.setGpr r v, d))
    (hspec : i.exec (m.arch s.pc) = { (m.arch s.pc).write r v with pc := d }) :
    MeetsSpec cfg s m i := by
  refine ⟨_, _, by rw [isaExecOnce_encode hrve i hfetch, hbody]; rfl, ?_, rfl⟩
  rw [hspec, setGpr_zero]
  rfl

end Steps

section Groups

variable {cfg : Config} {s : Decode} {m : Machine}

-- The equations that the groups below rewrite with, made once here and not in each proof.
attribute [local simp] execBody instName fetched operands instType Instr.encode Instr.exec State.next
  ROp.eval IOp.eval ShOp.eval LOp.size LOp.extend SOp.size

/-- Below 32 the three shift bodies compute what the specification computes
from the low five bits of the count. -/
theorem shl_ok {a n : Word} (h : n.toNat < 32) : shl a n = .ok (a <<< (n.toNat % 32)) := by
  rw [shl, if_pos h, Nat.mod_eq_of_lt h]

theorem shr_ok {a n : Word} (h : n.toNat < 32) : shr a n = .ok (a >>> (n.toNat % 32)) := by
  rw [shr, if_pos h, Nat.mod_eq_of_lt h]

theorem sar_ok {a n : Word} (h : n.toNat < 32) : sar a n = .ok (a.sshiftRight (n.toNat % 32)) := by
  rw [sar, if_pos h, Nat.mod_eq_of_lt h]

theorem sext_load (v : Word) {n : ℕ} (hn : n ≤ 32) :
    (SEXT (v.setWidth 64) n).setWidth 32 = (v.setWidth n).signExtend 32 := by
  rw [SEXT, BitVec.setWidth_setWidth_of_le _ (by omega), setWidth_signExtend]

theorem operands_op (o : ROp) (rd rs1 rs2 : Reg) :
    operands m (.op o rd rs1 rs2) = ⟨rd, m.cpu.gpr rs1, m.cpu.gpr rs2, 0⟩ := by
  simp only [operands, instType, Instr.encode, rd_encodeR, rs1_encodeR, rs2_encodeR]

theorem operands_opImm (o : IOp) (rd rs1 : Reg) (imm : BitVec 12) :
    operands m (.opImm o rd rs1 imm) = ⟨rd, m.cpu.gpr rs1, 0, imm.signExtend 32⟩ := by
  simp only [operands, instType, Instr.encode, immI_encodeI, rd_encodeI, rs1_encodeI]

theorem operands_jalr (rd rs1 : Reg) (imm : BitVec 12) :
    operands m (.jalr rd rs1 imm) = ⟨rd, m.cpu.gpr rs1, 0, imm.signExtend 32⟩ := by
  simp only [operands, instType, Instr.encode, immI_encodeI, rd_encodeI, rs1_encodeI]

theorem operands_load (o : LOp) (rd rs1 : Reg) (imm : BitVec 12) :
    operands m (.load o rd rs1 imm) = ⟨rd, m.cpu.gpr rs1, 0, imm.signExtend 32⟩ := by
  simp only [operands, instType, Instr.encode, immI_encodeI, rd_encodeI, rs1_encodeI]

theorem meetsSpec_op (hrve : cfg.RVE = false) (hpc : s.snpc = s.pc) (h0 : m.cpu.gpr 0 = 0)
    (o : ROp) (rd rs1 rs2 : Reg)
    (hfetch : vaddrIfetch cfg m.mem s.snpc 4 = .ok (Instr.op o rd rs1 rs2).encode)
    (hsh : ShiftInRange m (.op o rd rs1 rs2)) : MeetsSpec cfg s m (.op o rd rs1 rs2) := by
  have hspec : (Instr.op o rd rs1 rs2).exec (m.arch s.pc) =
      { (m.arch s.pc).write rd (o.eval (m.cpu.gpr rs1) (m.cpu.gpr rs2)) with pc := s.snpc + 4 } := by
    simp only [Instr.exec, State.next, read_eq h0, hpc]
    rfl
  refine meetsSpec_assign hrve hfetch ?_ hspec
  cases o <;> simp only [operands_op, instName, execBody, setGpr_ok hrve, bind, Except.bind, pure,
    Except.pure, ROp.eval, fetched, ofBool]
  case sll => rw [shl_ok hsh]
  case srl => rw [shr_ok hsh]
  case sra => rw [sar_ok hsh]

theorem meetsSpec_opImm (hrve : cfg.RVE = false) (hpc : s.snpc = s.pc) (h0 : m.cpu.gpr 0 = 0)
    (o : IOp) (rd rs1 : Reg) (imm : BitVec 12)
    (hfetch : vaddrIfetch cfg m.mem s.snpc 4 = .ok (Instr.opImm o rd rs1 imm).encode) :
    MeetsSpec cfg s m (.opImm o rd rs1 imm) := by
  have hspec : (Instr.opImm o rd rs1 imm).exec (m.arch s.pc) =
      { (m.arch s.pc).write rd (o.eval (m.cpu.gpr rs1) (imm.signExtend 32)) with
        pc := s.snpc + 4 } := by
    simp only [Instr.exec, State.next, read_eq h0, hpc]
    rfl
  refine meetsSpec_assign hrve hfetch ?_ hspec
  cases o <;> simp only [operands_opImm, instName, execBody, setGpr_ok hrve, bind, Except.bind,
    pure, Except.pure, IOp.eval, fetched, ofBool]

theorem meetsSpec_shiftImm (hrve : cfg.RVE = false) (hpc : s.snpc = s.pc) (h0 : m.cpu.gpr 0 = 0)
    (o : ShOp) (rd rs1 : Reg) (shamt : BitVec 5)
    (hfetch : vaddrIfetch cfg m.mem s.snpc 4 = .ok (Instr.shiftImm o rd rs1 shamt).encode) :
    MeetsSpec cfg s m (.shiftImm o rd rs1 shamt) := by
  have hspec : (Instr.shiftImm o rd rs1 shamt).exec (m.arch s.pc) =
      { (m.arch s.pc).write rd (o.eval (m.cpu.gpr rs1) shamt) with pc := s.snpc + 4 } := by
    simp only [Instr.exec, State.next, read_eq h0, hpc]
    rfl
  have hn := immI_shamt o.funct7 shamt rs1 o.funct3 rd 0b0010011
  have hlt := hn.trans_lt shamt.isLt
  have hmod : shamt.toNat % 32 = shamt.toNat := Nat.mod_eq_of_lt shamt.isLt
  refine meetsSpec_assign hrve hfetch ?_ hspec
  cases o <;> simp only [operands, instType, Instr.encode, rd_encodeR, rs1_encodeR, instName,
    execBody, setGpr_ok hrve, bind, Except.bind, pure, Except.pure, ShOp.eval, fetched]
  case slli => rw [shl_ok hlt, hn, hmod]
  case srli => rw [shr_ok hlt, hn, hmod]
  case srai => rw [sar_ok hlt, hn, hmod]

theorem meetsSpec_lui (hrve : cfg.RVE = false) (hpc : s.snpc = s.pc) (rd : Reg) (imm : BitVec 20)
    (hfetch : vaddrIfetch cfg m.mem s.snpc 4 = .ok (Instr.lui rd imm).encode) :
    MeetsSpec cfg s m (.lui rd imm) := by
  have hspec : (Instr.lui rd imm).exec (m.arch s.pc) =
      { (m.arch s.pc).write rd (imm ++ 0#12) with pc := s.snpc + 4 } := by
    rw [hpc]
    rfl
  refine meetsSpec_assign hrve hfetch ?_ hspec
  simp only [operands, instType, Instr.encode, immU_encodeU, rd_encodeU, instName,
    execBody, setGpr_ok hrve, bind, Except.bind, pure, Except.pure, fetched]

theorem meetsSpec_auipc (hrve : cfg.RVE = false) (hpc : s.snpc = s.pc) (rd : Reg)
    (imm : BitVec 20) (hfetch : vaddrIfetch cfg m.mem s.snpc 4 = .ok (Instr.auipc rd imm).encode) :
    MeetsSpec cfg s m (.auipc rd imm) := by
  have hspec : (Instr.auipc rd imm).exec (m.arch s.pc) =
      { (m.arch s.pc).write rd (s.pc + (imm ++ 0#12)) with pc := s.snpc + 4 } := by
    rw [hpc]
    rfl
  refine meetsSpec_assign hrve hfetch ?_ hspec
  simp only [operands, instType, Instr.encode, immU_encodeU, rd_encodeU, instName,
    execBody, setGpr_ok hrve, bind, Except.bind, pure, Except.pure, fetched]

theorem meetsSpec_jal (hrve : cfg.RVE = false) (rd : Reg) (imm : BitVec 20)
    (hfetch : vaddrIfetch cfg m.mem s.snpc 4 = .ok (Instr.jal rd imm).encode) :
    MeetsSpec cfg s m (.jal rd imm) := by
  refine meetsSpec_assign (r := rd) (v := s.pc + 4) (d := s.pc + offset imm) hrve hfetch ?_ rfl
  simp only [operands, instType, Instr.encode, immJ_encodeJ, instName, execBody, setGpr_ok hrve,
    bind, Except.bind, pure, Except.pure, fetched]
  rw [encodeJ_eq, rd_encodeU]

theorem meetsSpec_jalr (hrve : cfg.RVE = false) (h0 : m.cpu.gpr 0 = 0) (rd rs1 : Reg)
    (imm : BitVec 12)
    (hfetch : vaddrIfetch cfg m.mem s.snpc 4 = .ok (Instr.jalr rd rs1 imm).encode) :
    MeetsSpec cfg s m (.jalr rd rs1 imm) := by
  refine meetsSpec_assign (r := rd) (v := s.pc + 4)
    (d := (m.cpu.gpr rs1 + imm.signExtend 32) &&& ~~~1) hrve hfetch ?_ ?_
  · simp only [operands_jalr, instName, execBody, setGpr_ok hrve, bind, Except.bind, pure,
      Except.pure, fetched]
  · simp only [Instr.exec, read_eq h0]
    rfl

theorem meetsSpec_branch (hrve : cfg.RVE = false) (hpc : s.snpc = s.pc) (h0 : m.cpu.gpr 0 = 0)
    (o : BOp) (rs1 rs2 : Reg) (imm : BitVec 12)
    (hfetch : vaddrIfetch cfg m.mem s.snpc 4 = .ok (Instr.branch o rs1 rs2 imm).encode) :
    MeetsSpec cfg s m (.branch o rs1 rs2 imm) := by
  have hbody : execBody cfg m (fetched s (.branch o rs1 rs2 imm))
      (operands m (.branch o rs1 rs2 imm)) (instName (.branch o rs1 rs2 imm)) =
      .ok (m, if o.taken (m.cpu.gpr rs1) (m.cpu.gpr rs2) then s.pc + offset imm
        else s.snpc + 4) := by
    rw [← immB_encodeB imm rs2 rs1 o.funct3 0b1100011]
    cases o <;> simp only [operands, instType, Instr.encode, encodeB_eq, rs1_encodeR, rs2_encodeR,
      instName, execBody, BOp.taken, fetched]
  refine ⟨_, _, by rw [isaExecOnce_encode hrve _ hfetch, hbody]; rfl, ?_, ?_⟩
  · rw [setGpr_zero_self h0]
    simp only [Instr.exec, read_eq h0, hpc, State.next]
    split_ifs <;> rfl
  · rw [setGpr_zero_self h0]

theorem meetsSpec_load (hrve : cfg.RVE = false) (hpc : s.snpc = s.pc) (h0 : m.cpu.gpr 0 = 0)
    (o : LOp) (rd rs1 : Reg) (imm : BitVec 12)
    (hfetch : vaddrIfetch cfg m.mem s.snpc 4 = .ok (Instr.load o rd rs1 imm).encode)
    (hacc : InMem cfg (m.cpu.gpr rs1 + imm.signExtend 32) o.size) :
    MeetsSpec cfg s m (.load o rd rs1 imm) := by
  have hspec : (Instr.load o rd rs1 imm).exec (m.arch s.pc) =
      { (m.arch s.pc).write rd
          (o.extend (loadLE m.mem.view (m.cpu.gpr rs1 + imm.signExtend 32) o.size)) with
        pc := s.snpc + 4 } := by
    simp only [Instr.exec, State.next, read_eq h0, hpc]
    rfl
  have hread := paddrRead_ok m.mem hacc (by cases o <;> decide)
  refine meetsSpec_assign hrve hfetch ?_ hspec
  cases o <;> simp only [LOp.size] at hread <;>
    simp only [operands_load, instName, execBody, vaddrRead, hread, setGpr_ok hrve, bind,
      Except.bind, pure, Except.pure, LOp.extend, LOp.size, fetched, id_eq]
  case lb => rw [sext_load _ (by decide)]
  case lh => rw [sext_load _ (by decide)]

theorem meetsSpec_store (hrve : cfg.RVE = false) (hpc : s.snpc = s.pc) (h0 : m.cpu.gpr 0 = 0)
    (o : SOp) (rs1 rs2 : Reg) (imm : BitVec 12)
    (hfetch : vaddrIfetch cfg m.mem s.snpc 4 = .ok (Instr.store o rs1 rs2 imm).encode)
    (hacc : InMem cfg (m.cpu.gpr rs1 + imm.signExtend 32) o.size) :
    MeetsSpec cfg s m (.store o rs1 rs2 imm) := by
  obtain ⟨mem', hwrite, hview⟩ :=
    paddrWrite_ok m.mem (m.cpu.gpr rs2) hacc (by cases o <;> decide)
  have hops : operands m (.store o rs1 rs2 imm) =
      ⟨(operands m (.store o rs1 rs2 imm)).rd, m.cpu.gpr rs1, m.cpu.gpr rs2,
        imm.signExtend 32⟩ := by
    simp only [operands, instType, Instr.encode, immS_encodeS, rs1_encodeS, rs2_encodeS]
  have hbody : execBody cfg m (fetched s (.store o rs1 rs2 imm))
      (operands m (.store o rs1 rs2 imm)) (instName (.store o rs1 rs2 imm)) =
      .ok ({ m with mem := mem' }, s.snpc + 4) := by
    rw [hops]
    cases o <;> simp only [SOp.size] at hwrite <;>
      simp only [instName, execBody, vaddrWrite, hwrite, bind, Except.bind, pure, Except.pure,
        fetched]
  refine ⟨_, _, by rw [isaExecOnce_encode hrve _ hfetch, hbody]; rfl, ?_, ?_⟩
  · rw [setGpr_zero_self (by exact h0)]
    simp only [Instr.exec, read_eq h0, hpc, State.next]
    simp only [Machine.arch, hview]
  · rw [setGpr_zero_self (by exact h0)]

end Groups

section Main

variable {cfg : Config} {s : Decode} {m : Machine} {i : Instr}

/-- Every instruction whose shift count is defined meets its specification. -/
theorem meetsSpec_of_shiftInRange (hrve : cfg.RVE = false) (hpc : s.snpc = s.pc)
    (h0 : m.cpu.gpr 0 = 0) (hfetch : vaddrIfetch cfg m.mem s.snpc 4 = .ok i.encode)
    (hacc : AccessOk cfg (m.arch s.pc) i) (hsh : ShiftInRange m i) : MeetsSpec cfg s m i := by
  cases i with
  | op o rd rs1 rs2 => exact meetsSpec_op hrve hpc h0 o rd rs1 rs2 hfetch hsh
  | opImm o rd rs1 imm => exact meetsSpec_opImm hrve hpc h0 o rd rs1 imm hfetch
  | shiftImm o rd rs1 shamt => exact meetsSpec_shiftImm hrve hpc h0 o rd rs1 shamt hfetch
  | lui rd imm => exact meetsSpec_lui hrve hpc rd imm hfetch
  | auipc rd imm => exact meetsSpec_auipc hrve hpc rd imm hfetch
  | jal rd imm => exact meetsSpec_jal hrve rd imm hfetch
  | jalr rd rs1 imm => exact meetsSpec_jalr hrve h0 rd rs1 imm hfetch
  | branch o rs1 rs2 imm => exact meetsSpec_branch hrve hpc h0 o rs1 rs2 imm hfetch
  | load o rd rs1 imm =>
    have h := hacc _ _ rfl
    rw [read_eq h0] at h
    exact meetsSpec_load hrve hpc h0 o rd rs1 imm hfetch h
  | store o rs1 rs2 imm =>
    have h := hacc _ _ rfl
    rw [read_eq h0] at h
    exact meetsSpec_store hrve hpc h0 o rs1 rs2 imm hfetch h

/-- A register shift by 32 or more has no defined outcome. -/
theorem not_meetsSpec_of_shift (hrve : cfg.RVE = false)
    (hfetch : vaddrIfetch cfg m.mem s.snpc 4 = .ok i.encode) (hsh : ¬ ShiftInRange m i) :
    ¬ MeetsSpec cfg s m i := by
  have herr : execBody cfg m (fetched s i) (operands m i) (instName i) = .error .undefined := by
    cases i with
    | op o rd rs1 rs2 =>
      cases o <;> simp only [ShiftInRange, not_true_eq_false] at hsh
      all_goals
        simp only [operands_op, instName, execBody, shl, shr, sar, if_neg hsh, bind, Except.bind]
    | _ => exact absurd trivial hsh
  rintro ⟨s', m', hexec, -, -⟩
  rw [isaExecOnce_encode hrve i hfetch, herr] at hexec
  cases hexec

/-- Whatever word is executed, `R(0)` is zero afterwards. -/
theorem isaExecOnce_gpr_zero {s' : Decode} {m' : Machine}
    (h : isaExecOnce cfg s m = .ok (s', m')) : m'.cpu.gpr 0 = 0 := by
  obtain ⟨inst, -, h⟩ := bind_eq_ok.mp h
  have hlast : ∃ m₁, setGpr cfg m₁ 0 0 = .ok m' := by
    simp only [decodeExec] at h
    split at h
    · obtain ⟨o, -, h⟩ := bind_eq_ok.mp h
      obtain ⟨⟨m₁, dnpc⟩, -, h⟩ := bind_eq_ok.mp h
      obtain ⟨m₂, hset, h⟩ := bind_eq_ok.mp h
      cases h
      exact ⟨m₁, hset⟩
    · obtain ⟨m₂, hset, h⟩ := bind_eq_ok.mp h
      cases h
      exact ⟨m, hset⟩
  obtain ⟨m₁, hset⟩ := hlast
  rw [setGpr_eq_ok hset, setGpr_gpr, Function.update_self]

/-- The interpreter meets the specification exactly when no register shift has
a count of 32 or more. -/
theorem isaExecOnce_meetsSpec_iff (hrve : cfg.RVE = false) (hpc : s.snpc = s.pc)
    (h0 : m.cpu.gpr 0 = 0) (hfetch : vaddrIfetch cfg m.mem s.snpc 4 = .ok i.encode)
    (hacc : AccessOk cfg (m.arch s.pc) i) : MeetsSpec cfg s m i ↔ ShiftInRange m i := by
  refine ⟨fun h => ?_, meetsSpec_of_shiftInRange hrve hpc h0 hfetch hacc⟩
  by_contra hsh
  exact not_meetsSpec_of_shift hrve hfetch hsh h

/-- A flash image that starts with the word `w`, and zeros elsewhere. -/
def imageOf (w : Word) : Mem
  | .flash, k => byteOf w k
  | .sram, _ => 0

/-- The machine about to run `w` at the reset vector, with `x2` holding `v`. -/
def startOf (w v : Word) : Machine :=
  { cpu := ⟨Function.update 0 2 v, 0x30000000, ⟨0, 0, 0x1800, 0⟩⟩
    mem := imageOf w
    nemuState := ⟨.RUNNING, 0, 0⟩
    isSkipRef := false
    skipDutNrInst := 0 }

def defaultConfig : Config := ⟨0x30000000, 0x10000000, false, false, false, by decide⟩

def resetDecode : Decode := ⟨0x30000000, 0x30000000, 0, 0⟩

theorem imageOf_fetch (w v : Word) :
    vaddrIfetch defaultConfig (startOf w v).mem resetDecode.snpc 4 = .ok w := by
  have hin : InMem defaultConfig resetDecode.snpc 4 :=
    .inl ⟨by decide, by decide, by decide, by decide⟩
  have hload : loadLE (imageOf w).view resetDecode.snpc 4 = w := by
    conv_rhs => rw [← leWord_byteOf w]
    refine leWord_congr fun k hk => ?_
    interval_cases k <;> rfl
  exact (paddrRead_ok _ hin (by decide)).trans (congrArg _ hload)

/-- `sll x1, x2, x2` with three in `x2`. -/
theorem isaExecOnce_meetsSpec_iff_sll :
    MeetsSpec defaultConfig resetDecode (startOf (Instr.op .sll 1 2 2).encode 3) (.op .sll 1 2 2) ↔
      ShiftInRange (startOf (Instr.op .sll 1 2 2).encode 3) (.op .sll 1 2 2) :=
  isaExecOnce_meetsSpec_iff rfl rfl (by decide) (imageOf_fetch _ _) fun _ _ h => by cases h

/-- The same shift with 32 in `x2` has no outcome at all. -/
theorem sll_by_32_fails :
    ¬ ∀ (cfg : Config) (s : Decode) (m : Machine) (i : Instr), cfg.RVE = false → s.snpc = s.pc →
      m.cpu.gpr 0 = 0 → vaddrIfetch cfg m.mem s.snpc 4 = .ok i.encode →
      AccessOk cfg (m.arch s.pc) i → MeetsSpec cfg s m i := by
  intro h
  have hmeets : MeetsSpec defaultConfig resetDecode (startOf (Instr.op .sll 1 2 2).encode 32)
      (.op .sll 1 2 2) :=
    h _ _ _ _ rfl rfl (by decide) (imageOf_fetch _ _) fun _ _ ha => by cases ha
  have hcount : ¬ ShiftInRange (startOf (Instr.op .sll 1 2 2).encode 32) (.op .sll 1 2 2) := by
    rw [ShiftInRange]
    decide
  exact not_meetsSpec_of_shift rfl (imageOf_fetch _ _) hcount hmeets

end Main

end Ysyx.Nemu
