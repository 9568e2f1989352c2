import Ysyx.Lib.Rv32Code
import Ysyx.Nemu.GuestCode

/-! Guest code with jumps on NEMU: a run of code that makes no memory access and shifts by no
register is one that the emulator makes too, with everything but the registers and the pc left
as it was. -/

namespace Ysyx.Nemu

open Bytes Rv32

def plain : Instr → Bool
  | .load .. | .store .. | .op .sll .. | .op .srl .. | .op .sra .. => false
  | _ => true

def Machine.moved (m : Machine) (x : Reg → Word) (pc : Word) : Machine :=
  { m with cpu := { m.cpu with gpr := x, pc := pc } }

section Flow

variable {cfg : Config} {m : Machine} {a : Word} {code : List Instr}

theorem access_plain {i : Instr} (h : plain i) (s : State) : i.access s = none := by
  cases i with
  | load | store => cases h
  | _ => rfl

theorem shiftInRange_plain {i : Instr} (h : plain i) (m : Machine) : ShiftInRange m i := by
  cases i with
  | op o rd rs1 rs2 =>
    cases o with
    | sll | srl | sra => cases h
    | _ => trivial
  | _ => trivial

theorem mem_plain {i : Instr} (h : plain i) (s : State) : (i.exec s).mem = s.mem := by
  cases i with
  | branch o rs1 rs2 imm =>
    rw [Instr.exec]
    split_ifs <;> rfl
  | store => cases h
  | load => cases h
  | _ => rfl

theorem execOnce_plain {i : Instr} (hrve : cfg.RVE = false) (h0 : m.cpu.gpr 0 = 0)
    (hfetch : vaddrIfetch cfg m.mem m.cpu.pc 4 = .ok i.encode) (hi : plain i) :
    ∃ s m', execOnce cfg m m.cpu.pc = .ok (s, m') ∧ m'.arch m'.cpu.pc = i.exec (m.arch m.cpu.pc) ∧
      m' = { m.moved m'.cpu.gpr m'.cpu.pc with mem := m'.mem } ∧ m'.cpu.gpr 0 = 0 := by
  have hacc : AccessOk cfg (m.arch m.cpu.pc) i := fun b n h => by
    rw [access_plain hi] at h
    cases h
  obtain ⟨s, m₁, hexec, harch, hrest⟩ := meetsSpec_of_shiftInRange
    (s := ⟨m.cpu.pc, m.cpu.pc, 0, 0⟩) hrve rfl h0 hfetch hacc (shiftInRange_plain hi m)
  have hzero := isaExecOnce_gpr_zero hexec
  have hafter := execOnce_of_isaExecOnce (i := .base i) hfetch hexec
  refine ⟨s, _, hafter, harch, ?_, hzero⟩
  rw [hrest]
  rfl

theorem placed_mem_eq {m' : Machine} (h : Placed cfg a (code.map .base) m.mem.view)
    (hmem : m'.mem.view = m.mem.view) : Placed cfg a (code.map .base) m'.mem.view := hmem ▸ h

theorem execSteps_of_leads {Q : State → Prop} (hrve : cfg.RVE = false) (h0 : m.cpu.gpr 0 = 0)
    (hcode : Placed cfg a (code.map .base) m.mem.view) (hplain : ∀ i ∈ code, plain i)
    (h : Leads (CodeStep a code) (m.arch m.cpu.pc) Q) :
    ∃ n m', execSteps cfg n m = .ok m' ∧ Q (m'.arch m'.cpu.pc) ∧
      m'.cpu.gpr 0 = 0 ∧ m'.mem.view = m.mem.view ∧ m'.cpu.csr = m.cpu.csr ∧
      m'.nemuState = m.nemuState := by
  obtain ⟨t, run, ht⟩ := h
  generalize hs : m.arch m.cpu.pc = s at run
  induction run using Relation.ReflTransGen.head_induction_on generalizing m with
  | refl =>
    subst hs
    exact ⟨0, m, rfl, ht, h0, rfl, rfl, rfl⟩
  | head hstep _ ih =>
    obtain ⟨k, i, hpc, hi, rfl⟩ := hstep
    subst hs
    have hpl := hplain i (List.mem_of_getElem? hi)
    have hget : (code.map Insn.base)[k]? = some (.base i) := by rw [List.getElem?_map, hi]; rfl
    obtain ⟨s, m₁, hexec, harch, hframe, hzero⟩ :=
      execOnce_plain hrve h0 (hcode.fetch hpc hget) hpl
    have hview : m₁.mem.view = m.mem.view :=
      (congrArg State.mem harch).trans (mem_plain hpl _)
    obtain ⟨n, m', hsteps, hQ, h0', hmem, hcsr, hstate⟩ :=
      ih hzero (placed_mem_eq hcode hview) harch
    refine ⟨n + 1, m', ?_, hQ, h0', hmem.trans hview, ?_, ?_⟩
    · rw [execSteps, hexec]
      exact hsteps
    · rw [hcsr, hframe]
      rfl
    · rw [hstate, hframe]
      rfl

end Flow

end Ysyx.Nemu
