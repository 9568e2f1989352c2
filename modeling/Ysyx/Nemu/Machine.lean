import Ysyx.Nemu.Memory

/-! The emulator's global state that a riscv32 instruction can touch: `cpu`,
the two memory arrays, `nemu_state`, and the two static flags of `difftest`. -/

namespace Ysyx.Nemu

open Bytes

abbrev Reg := BitVec 5

structure CSRs where
  mcause : Word
  mepc : Word
  mstatus : Word
  mtvec : Word
  deriving DecidableEq, Repr

/-- `riscv32_CPU_state`. With `CONFIG_RVE` only `gpr 0 … gpr 15` exist. -/
@[ext] structure CPUState where
  gpr : Reg → Word
  pc : Word
  csr : CSRs

inductive RunState where
  | RUNNING | STOP | END | ABORT | QUIT
  deriving DecidableEq, Repr

@[ext] structure NEMUState where
  state : RunState
  haltPc : Word
  haltRet : Word
  deriving DecidableEq, Repr

/-- `skip_dut_nr_inst` is a C `int`; the model leaves it unbounded. -/
@[ext] structure Machine where
  cpu : CPUState
  mem : Mem
  nemuState : NEMUState
  isSkipRef : Bool
  skipDutNrInst : ℤ

def Config.nrGpr (cfg : Config) : ℕ := if cfg.RVE then 16 else 32

/-- `check_reg_idx` under `CONFIG_RT_CHECK`. -/
def checkRegIdx (cfg : Config) (idx : Reg) : Except Fault Reg :=
  if idx.toNat < cfg.nrGpr then .ok idx else .error .assertion

def gpr (cfg : Config) (m : Machine) (idx : Reg) : Except Fault Word := do
  return m.cpu.gpr (← checkRegIdx cfg idx)

def Machine.setGpr (m : Machine) (idx : Reg) (v : Word) : Machine :=
  { m with cpu := { m.cpu with gpr := Function.update m.cpu.gpr idx v } }

def setGpr (cfg : Config) (m : Machine) (idx : Reg) (v : Word) : Except Fault Machine := do
  return m.setGpr (← checkRegIdx cfg idx) v

def difftestSkipRef (cfg : Config) (m : Machine) : Machine :=
  if cfg.DIFFTEST then { m with isSkipRef := true, skipDutNrInst := 0 } else m

def setNemuState (cfg : Config) (m : Machine) (state : RunState) (pc haltRet : Word) : Machine :=
  { difftestSkipRef cfg m with nemuState := ⟨state, pc, haltRet⟩ }

/-- The two words at `thispc` are fetched for the message, so the pc has to be readable twice. -/
def invalidInst (cfg : Config) (m : Machine) (thispc : Word) : Except Fault Machine := do
  let _ ← vaddrIfetch cfg m.mem thispc 4
  let _ ← vaddrIfetch cfg m.mem (thispc + 4) 4
  return setNemuState cfg m .ABORT thispc (-1)

/-- `isa_raise_intr` ignores its first argument. -/
def isaRaiseIntr (m : Machine) (epc : Word) : Machine × Word :=
  ({ m with cpu := { m.cpu with csr := { m.cpu.csr with mcause := 0xb, mepc := epc } } },
    m.cpu.csr.mtvec)

section Frame

variable (m : Machine) (idx : Reg) (v : Word)

@[simp] theorem setGpr_pc : (m.setGpr idx v).cpu.pc = m.cpu.pc := rfl
@[simp] theorem setGpr_csr : (m.setGpr idx v).cpu.csr = m.cpu.csr := rfl
@[simp] theorem setGpr_nemuState : (m.setGpr idx v).nemuState = m.nemuState := rfl
@[simp] theorem setGpr_gpr : (m.setGpr idx v).cpu.gpr = Function.update m.cpu.gpr idx v := rfl

end Frame

theorem checkRegIdx_ok {cfg : Config} (h : cfg.RVE = false) (idx : Reg) :
    checkRegIdx cfg idx = .ok idx := by
  rw [checkRegIdx, Config.nrGpr, h]
  exact if_pos idx.isLt

theorem checkRegIdx_low (cfg : Config) {idx : Reg} (h : idx.toNat < 16) :
    checkRegIdx cfg idx = .ok idx := by
  have hlt : idx.toNat < cfg.nrGpr := by
    rw [Config.nrGpr]
    split_ifs <;> omega
  exact if_pos hlt

theorem setGpr_eq_ok {cfg : Config} {m m' : Machine} {idx : Reg} {v : Word}
    (h : setGpr cfg m idx v = .ok m') : m' = m.setGpr idx v := by
  obtain ⟨r, hr, hm⟩ := bind_eq_ok.mp h
  have hidx : idx = r := by
    unfold checkRegIdx at hr
    split_ifs at hr
    exact Except.ok.inj hr
  rw [hidx]
  exact (Except.ok.inj hm).symm

end Ysyx.Nemu
