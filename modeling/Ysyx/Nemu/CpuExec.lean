import Ysyx.Nemu.Difftest
import Ysyx.Nemu.Inst
import Ysyx.Nemu.Watchpoint

/-! The execution loop (`cpu-exec.c`), the debugger commands that lead to it
(`sdb.c`) and the exit status (`state.c`). -/

namespace Ysyx.Nemu

open Bytes

/-- The emulator: the guest's machine, the watchpoints, the reference, the number of
instructions executed, and the reports printed so far. -/
structure Sim (ρ : Type) where
  m : Machine
  w : WPPool
  ref : ρ
  nrGuestInst : BitVec 64
  out : List Report

inductive SimFault where
  | cpu (f : Fault)
  | wp (f : WPFault)
  deriving DecidableEq, Repr

def ofCpu {α : Type} : Except Fault α → Except SimFault α
  | .ok a => .ok a
  | .error f => .error (.cpu f)

def ofWp {α : Type} : Except WPFault α → Except SimFault α
  | .ok a => .ok a
  | .error f => .error (.wp f)

def EBREAK : Word := 0x00100073

section Loop

variable {ρ : Type} (cfg : Config) (R : RefModel ρ)

/-- What `exec_once` does after `isa_exec_once`. -/
def afterIsaExec (s : Decode) (m : Machine) : Machine :=
  if s.inst = EBREAK then m.stop else { m with cpu := { m.cpu with pc := s.dnpc } }

/-- The other fields of `*s` are overwritten before they are read. -/
def execOnce (m : Machine) (pc : Word) : Except Fault (Decode × Machine) := do
  let (s, m) ← isaExecOnce cfg ⟨pc, pc, 0, 0⟩ m
  return (s, afterIsaExec s m)

/-- `IFDEF(CONFIG_DIFFTEST, difftest_step(_this->pc, dnpc));` -/
def difftestHook (s : Decode) (dnpc : Word) (σ : Sim ρ) : Except SimFault (Sim ρ) :=
  if cfg.DIFFTEST then do
    let (m, r) ← ofCpu (difftestStep cfg R σ.m σ.ref s.pc dnpc)
    return { σ with m := m, ref := r }
  else .ok σ

/-- `IFDEF(CONFIG_WATCHPOINT, wp_difftest());` -/
def watchHook (σ : Sim ρ) : Except SimFault (Sim ρ) :=
  if cfg.WATCHPOINT then do
    let (m, w, out) ← ofWp (wpDifftest cfg σ.m σ.w)
    return { σ with m := m, w := w, out := σ.out ++ out }
  else .ok σ

def traceAndDifftest (s : Decode) (dnpc : Word) (σ : Sim ρ) : Except SimFault (Sim ρ) := do
  watchHook cfg (← difftestHook cfg R s dnpc σ)

/-- The body of the loop of `execute`, up to its test. -/
def iteration (σ : Sim ρ) : Except SimFault (Sim ρ) := do
  let (s, m) ← ofCpu (execOnce cfg σ.m σ.m.cpu.pc)
  let σ := { σ with m := m, nrGuestInst := σ.nrGuestInst + 1 }
  traceAndDifftest cfg R s m.cpu.pc σ

def execute : ℕ → Sim ρ → Except SimFault (Sim ρ)
  | 0, σ => .ok σ
  | n + 1, σ => do
    let σ ← iteration cfg R σ
    if σ.m.nemuState.state ≠ .RUNNING then return σ else execute n σ

def Sim.setState (σ : Sim ρ) (state : RunState) : Sim ρ :=
  { σ with m := { σ.m with nemuState := { σ.m.nemuState with state := state } } }

def cpuExec (n : BitVec 64) (σ : Sim ρ) : Except SimFault (Sim ρ) :=
  match σ.m.nemuState.state with
  | .END | .ABORT => .ok σ
  | _ => do
    let σ ← execute cfg R n.toNat (σ.setState .RUNNING)
    match σ.m.nemuState.state with
    | .RUNNING => return σ.setState .STOP
    | _ => return σ

/-- The commands that run the guest (`c`, and `si` with its argument) or change the watchpoints. -/
inductive Cmd where
  | c
  | si (step : BitVec 32)
  | w (args : List Char)
  | d (no : ℤ)

/-- The handler of a command. The `int` of `si` is converted to `uint64_t`. -/
def runCmd : Cmd → Sim ρ → Except SimFault (Sim ρ)
  | .c, σ => cpuExec cfg R (-1) σ
  | .si step, σ => cpuExec cfg R (step.signExtend 64) σ
  | .w args, σ => do
    let (result, success) ← ofWp (evalWp cfg σ.m args)
    if success then do
      let (_, w) ← ofWp (wpSet σ.w args result)
      return { σ with w := w }
    else return σ
  | .d no, σ => do
    return { σ with w := ← ofWp (wpDelete σ.w no) }

end Loop

def isExitStatusBad (s : NEMUState) : Bool :=
  !((s.state == .END && s.haltRet == 0) || s.state == .QUIT)

end Ysyx.Nemu
