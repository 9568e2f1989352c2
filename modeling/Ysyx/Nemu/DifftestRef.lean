import Ysyx.Nemu.CpuExec
import Ysyx.Nemu.MemBounds

/-! NEMU as the reference (`cpu/difftest/ref.c`), and how the two sides are set up: `init_mem`,
`init_isa`, `load_img` and `init_difftest`. -/

namespace Ysyx.Nemu

open Bytes

/-- `CONFIG_DIFFTEST` is only there for an executable, so that no reference is behind this one. -/
def nullRef : RefModel Unit := ⟨id, fun _ => ⟨fun _ => 0, 0, ⟨0, 0, 0, 0⟩⟩, fun _ => id⟩

/-- The state of the shared object. A fault in it ends the process. -/
abbrev RefNemu := Except SimFault (Sim Unit)

/-- `difftest_exec` and `difftest_regcpy`. -/
def nemuRef (cfg : Config) : RefModel RefNemu where
  exec r := do cpuExec cfg nullRef 1 (← r)
  regs r := match r with
    | .ok σ => σ.m.cpu
    | .error _ => nullRef.regs ()
  setRegs cpu r := do
    let σ ← r
    return { σ with m := { σ.m with cpu } }

/-- `init_mem`, with the byte that `CONFIG_MEM_RANDOM` fills the flash with, or zero. -/
def initMem (fill : Byte) : Mem
  | .flash, _ => fill
  | .sram, _ => 0

def img : List Word := [0x00000297, 0x00028823, 0x0102c503, 0x00100073, 0xdeadbeef]

def writeHost (cfg : Config) (mem : Mem) (p : HostPtr) (data : List Byte) : Except Fault Mem :=
  if p.off + data.length ≤ cfg.arrayLen p.arr then
    .ok (Function.update mem p.arr fun i =>
      if p.off ≤ i ∧ i < p.off + data.length then data.getD (i - p.off) 0 else mem p.arr i)
  else .error .undefined

def restart (cpu : CPUState) (reset : Word) : CPUState :=
  { cpu with
    pc := reset
    csr := { cpu.csr with mstatus := 0x1800 }
    gpr := Function.update cpu.gpr 0 0 }

/-- `init_isa`. `CONFIG_PC_RESET_OFFSET` is zero, so that `RESET_VECTOR` is `CONFIG_MBASE`. -/
def initIsa (cfg : Config) (m : Machine) : Except Fault Machine := do
  let p ← guestToHost 0x30000000
  let mem ← writeHost cfg m.mem p (img.flatMap fun w : Word => (List.range 4).map (byteOf w))
  return { m with mem, cpu := restart m.cpu cfg.MBASE }

/-- The globals before `main`. -/
def zeroMachine (fill : Byte) : Machine where
  cpu := ⟨fun _ => 0, 0, ⟨0, 0, 0, 0⟩⟩
  mem := initMem fill
  nemuState := ⟨.STOP, 0, 0⟩
  isSkipRef := false
  skipDutNrInst := 0

/-- `load_img`: the size that goes to `init_difftest`. `fread` of no bytes returns 0. -/
def loadImg (cfg : Config) (file : Option (List Byte)) (m : Machine) :
    Except Fault (Machine × ℕ) :=
  match file with
  | none => .ok (m, 4096)
  | some data => do
    let p ← guestToHost cfg.MBASE
    let mem ← writeHost cfg m.mem p data
    if data = [] then .error .assertion else return ({ m with mem }, data.length)

def initSim {ρ : Type} (m : Machine) (w : WPPool) (ref : ρ) : Sim ρ := ⟨m, w, ref, 0, []⟩

/-- `wp_pool` before `init_wp_pool`. -/
def zeroPool : WPPool := ⟨fun _ => ⟨0, none, [], 0⟩, none, none⟩

/-- `init_difftest` with NEMU behind it: `difftest_init`, the image and the registers. The image is in
the arrays of both sides or of none. -/
def initDifftest (cfg : Config) (fill : Byte) (m : Machine) (size : ℕ) : Except Fault RefNemu := do
  let ref ← initIsa cfg (zeroMachine fill)
  let p ← guestToHost cfg.MBASE
  if p.off + size ≤ cfg.arrayLen p.arr then
    let (mem, _) ← difftestMemcpy ref.mem cfg.MBASE (fun i => m.mem p.arr (p.off + i)) size false
    return .ok (initSim { ref with mem, cpu := m.cpu } zeroPool ())
  else .error .undefined

/-- `init_monitor` of the executable, as far as the guest and the reference go. -/
def initMonitor (cfg : Config) (fill : Byte) (file : Option (List Byte)) :
    Except Fault (Sim RefNemu) := do
  let m ← initIsa cfg (zeroMachine 0)
  let (m, size) ← loadImg cfg file m
  let ref ← initDifftest cfg fill m size
  return initSim m (initWpPool zeroPool) ref

end Ysyx.Nemu
