import Ysyx.Nemu.Machine

/-! Differential testing (`cpu/difftest/dut.c`, `isa/riscv32/difftest/dut.c`). The
reference is any machine that can be stepped and whose registers can be read and set. -/

namespace Ysyx.Nemu

open Bytes

/-- What `init_difftest` takes from the shared object. -/
structure RefModel (ρ : Type) where
  /-- `ref_difftest_exec(1)` -/
  exec : ρ → ρ
  /-- `ref_difftest_regcpy(&ref_r, DIFFTEST_TO_DUT)` -/
  regs : ρ → CPUState
  /-- `ref_difftest_regcpy(&cpu, DIFFTEST_TO_REF)` -/
  setRegs : CPUState → ρ → ρ

section Difftest

variable {ρ : Type} (cfg : Config) (R : RefModel ρ)

/-- The loop of `isa_difftest_checkregs` from `i` on, with `n` rounds left. Its bound is 32
also where `cpu.gpr` has 16 elements. -/
def checkregsFrom (cpu ref : CPUState) : ℕ → ℕ → Except Fault Bool
  | 0, _ => .ok true
  | n + 1, i =>
    if i < cfg.nrGpr then
      if cpu.gpr (BitVec.ofNat 5 i) ≠ ref.gpr (BitVec.ofNat 5 i) then .ok false
      else checkregsFrom cpu ref n (i + 1)
    else .error .undefined

/-- Neither `pc` is compared. -/
def isaDifftestCheckregs (cpu ref : CPUState) : Except Fault Bool := checkregsFrom cfg cpu ref 32 0

def checkregs (m : Machine) (ref : CPUState) (pc : Word) : Except Fault Machine := do
  if ← isaDifftestCheckregs cfg m.cpu ref then return m
  else return { m with nemuState := { m.nemuState with state := .ABORT, haltPc := pc } }

def difftestStep (m : Machine) (r : ρ) (pc npc : Word) : Except Fault (Machine × ρ) :=
  if 0 < m.skipDutNrInst then
    if (R.regs r).pc = npc then do
      let m := { m with skipDutNrInst := 0 }
      return (← checkregs cfg m (R.regs r) npc, r)
    else
      let m := { m with skipDutNrInst := m.skipDutNrInst - 1 }
      if m.skipDutNrInst = 0 then .error .panic else .ok (m, r)
  else if m.isSkipRef then
    .ok ({ m with isSkipRef := false }, R.setRegs m.cpu r)
  else do
    let r := R.exec r
    return (← checkregs cfg m (R.regs r) pc, r)

/-- What a call that returns has done: caught up and compared, gone on catching up, copied the
registers over a skipped instruction, or stepped the reference and compared. -/
theorem difftestStep_cases {m m' : Machine} {r r' : ρ} {pc npc : Word}
    (h : difftestStep cfg R m r pc npc = .ok (m', r')) :
    (0 < m.skipDutNrInst ∧ (R.regs r).pc = npc ∧ r' = r ∧
      checkregs cfg { m with skipDutNrInst := 0 } (R.regs r) npc = .ok m') ∨
    (0 < m.skipDutNrInst ∧ (R.regs r).pc ≠ npc ∧ r' = r ∧ m.skipDutNrInst - 1 ≠ 0 ∧
      m' = { m with skipDutNrInst := m.skipDutNrInst - 1 }) ∨
    (¬ 0 < m.skipDutNrInst ∧ m.isSkipRef = true ∧ r' = R.setRegs m.cpu r ∧
      m' = { m with isSkipRef := false }) ∨
    (¬ 0 < m.skipDutNrInst ∧ m.isSkipRef = false ∧ r' = R.exec r ∧
      checkregs cfg m (R.regs (R.exec r)) pc = .ok m') := by
  unfold difftestStep at h
  by_cases hskip : 0 < m.skipDutNrInst
  · rw [if_pos hskip] at h
    by_cases hpc : (R.regs r).pc = npc
    · rw [if_pos hpc] at h
      obtain ⟨m₁, hcheck, h⟩ := bind_eq_ok.mp h
      cases h
      exact .inl ⟨hskip, hpc, rfl, hcheck⟩
    · rw [if_neg hpc] at h
      dsimp only at h
      split_ifs at h with hlast
      cases h
      exact .inr (.inl ⟨hskip, hpc, rfl, hlast, rfl⟩)
  · rw [if_neg hskip] at h
    by_cases href : m.isSkipRef = true
    · rw [if_pos href] at h
      cases h
      exact .inr (.inr (.inl ⟨hskip, href, rfl, rfl⟩))
    · rw [if_neg href] at h
      obtain ⟨m₁, hcheck, h⟩ := bind_eq_ok.mp h
      cases h
      exact .inr (.inr (.inr ⟨hskip, Bool.eq_false_iff.mpr href, rfl, hcheck⟩))

/-- `while (nr_ref -- > 0) ref_difftest_exec(1);` -/
def difftestSkipDut (m : Machine) (r : ρ) (nrRef nrDut : ℤ) : Machine × ρ :=
  ({ m with skipDutNrInst := m.skipDutNrInst + nrDut }, R.exec^[nrRef.toNat] r)

end Difftest

end Ysyx.Nemu
