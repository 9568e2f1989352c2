import Ysyx.Nemu.GuestCode

/-! The context switch of the riscv32-nemu port: `struct Context`, `trap.S`, `cte.c`, and the
runs of a kernel whose threads yield to one another. -/

namespace Ysyx.Am.Cte

open Bytes Nemu Rv32

structure Area where
  start : Word
  stop : Word
  deriving DecidableEq, Repr

inductive EventKind where
  | NULL | YIELD | SYSCALL | PAGEFAULT | ERROR | IRQ_TIMER | IRQ_IODEV
  deriving DecidableEq, Repr

/-- `Event`; its message stays null. -/
structure Event where
  event : EventKind
  cause : Word
  ref : Word
  deriving DecidableEq, Repr

def NR_REGS : ℕ := 32

/-- `&c->gpr[i]` -/
def gprOf (c : Word) (i : ℕ) : Word := slot c i

def mcauseOf (c : Word) : Word := slot c NR_REGS

def mstatusOf (c : Word) : Word := slot c (NR_REGS + 1)

def mepcOf (c : Word) : Word := slot c (NR_REGS + 2)

/-- `sizeof(Context)`: the registers, three CSRs and `pdir`. -/
def sizeofContext : ℕ := 4 * (NR_REGS + 4)

def XLEN : ℕ := 4

def CONTEXT_SIZE : ℕ := (NR_REGS + 3 + 1) * XLEN
def OFFSET_CAUSE : ℕ := (NR_REGS + 0) * XLEN
def OFFSET_STATUS : ℕ := (NR_REGS + 1) * XLEN
def OFFSET_EPC : ℕ := (NR_REGS + 2) * XLEN

/-- `REGS`: all but `x0` and `x2`. -/
def REGS : List ℕ :=
  [1, 3, 4, 5, 6, 7, 8, 9, 10, 11, 12, 13, 14, 15,
    16, 17, 18, 19, 20, 21, 22, 23, 24, 25, 26, 27, 28, 29, 30, 31]

def xreg (n : ℕ) : Rv32.Reg := BitVec.ofNat 5 n

def ra : Rv32.Reg := 1
def sp : Rv32.Reg := 2
def t0 : Rv32.Reg := 5
def t1 : Rv32.Reg := 6
def t2 : Rv32.Reg := 7
def a0 : Rv32.Reg := 10

def STORE (r : Rv32.Reg) (off : ℕ) (base : Rv32.Reg) : Insn :=
  .base (.store .sw base r (BitVec.ofNat 12 off))

def LOAD (r : Rv32.Reg) (off : ℕ) (base : Rv32.Reg) : Insn :=
  .base (.load .lw r base (BitVec.ofNat 12 off))

def PUSH (n : ℕ) : Insn := STORE (xreg n) (n * XLEN) sp

def POP (n : ℕ) : Insn := LOAD (xreg n) (n * XLEN) sp

def addi (r r' : Rv32.Reg) (imm : ℤ) : Insn := .base (.opImm .addi r r' (BitVec.ofInt 12 imm))

def mv (r r' : Rv32.Reg) : Insn := addi r r' 0

def csrr (r : Rv32.Reg) (n : CsrName) : Insn := .csrrs r 0 n

def csrw (n : CsrName) (r : Rv32.Reg) : Insn := .csrrw 0 r n

/-- The instructions between the pushes and the call; `li a0, (1 << 17)` is `lui a0, 0x20`. -/
def saveCsrs : List Insn :=
  [csrr t0 .mcause,
   csrr t1 .mstatus,
   csrr t2 .mepc,
   STORE t0 OFFSET_CAUSE sp,
   STORE t1 OFFSET_STATUS sp,
   STORE t2 OFFSET_EPC sp,
   .base (.lui a0 0x20),
   .base (.op .or t1 t1 a0),
   csrw .mstatus t1,
   mv a0 sp]

/-- `__am_asm_trap` up to the call of `__am_irq_handle`. -/
def trapSave : List Insn := addi sp sp (-CONTEXT_SIZE) :: (REGS.map PUSH ++ saveCsrs)

def restoreCsrs : List Insn :=
  [mv sp a0,
   LOAD t1 OFFSET_STATUS sp,
   LOAD t2 OFFSET_EPC sp,
   csrw .mstatus t1,
   csrw .mepc t2]

/-- `__am_asm_trap` from the return of `__am_irq_handle` up to `mret`. -/
def trapRestore : List Insn := restoreCsrs ++ (REGS.map POP ++ [addi sp sp CONTEXT_SIZE])

/-- `disp` is the distance to `__am_irq_handle` that the linker puts into the `jal`. -/
def amAsmTrap (disp : BitVec 20) : List Insn :=
  trapSave ++ .base (.jal ra disp) :: (trapRestore ++ [.mret])

/-- A user handler works on the guest's memory and returns a context. -/
abbrev UserHandler := Event → Word → Mem → Except Fault (Word × Mem)

/-- The `switch` of `__am_irq_handle`. -/
def irqEvent (cfg : Config) (c : Word) (mem : Mem) : Except Fault (Event × Mem) := do
  let mcause ← vaddrRead cfg mem (mcauseOf c) 4
  if mcause = 0xb then
    let mepc ← vaddrRead cfg mem (mepcOf c) 4
    let mem ← vaddrWrite cfg mem (mepcOf c) 4 (mepc + 4)
    return (⟨.YIELD, 0, 0⟩, mem)
  else return (⟨.ERROR, 0, 0⟩, mem)

def amIrqHandle (cfg : Config) (userHandler : Option UserHandler) (c : Word) (mem : Mem) :
    Except Fault (Word × Mem) :=
  match userHandler with
  | none => .ok (c, mem)
  | some handler => do
    let (ev, mem) ← irqEvent cfg c mem
    let (c, mem) ← handler ev c mem
    if c = 0 then .error .assertion else .ok (c, mem)

def kcontext (cfg : Config) (mem : Mem) (kstack : Area) (entry arg : Word) :
    Except Fault (Word × Mem) := do
  let c := kstack.stop - 4 - BitVec.ofNat 32 sizeofContext
  let mem ← vaddrWrite cfg mem (mcauseOf c) 4 0xb
  let mem ← vaddrWrite cfg mem (mstatusOf c) 4 0x1800
  let mem ← vaddrWrite cfg mem (mepcOf c) 4 entry
  let mem ← (List.range NR_REGS).foldlM (fun mem i => vaddrWrite cfg mem (gprOf c i) 4 0) mem
  let mem ← vaddrWrite cfg mem (gprOf c 10) 4 arg
  return (c, mem)

/-- Where the linker has put `__am_asm_trap`, and the distance in its `jal`. -/
structure Kernel where
  trap : Word
  disp : BitVec 20

def Kernel.code (k : Kernel) : List Insn := amAsmTrap k.disp

/-- The address of `__am_irq_handle`. -/
def Kernel.irqHandle (k : Kernel) : Word := slot k.trap trapSave.length + offset k.disp

/-- The bytes of `__am_asm_trap`. -/
def Kernel.Text (k : Kernel) (b : Word) : Prop := (b - k.trap).toNat < 4 * k.code.length

/-- Where a context comes from: the `ecall` of a thread, taken with the machine `m`, or
`kcontext`. -/
inductive Origin where
  | yielded (m : Machine)
  | created (kstack : Area) (entry arg : Word)

/-- What the thread finds in the machine when its context is resumed. -/
def Origin.Resumed (m' : Machine) : Origin → Prop
  | .yielded m => m'.cpu.pc = m.cpu.pc + 4 ∧ ∀ r, r ≠ 0 → m'.cpu.gpr r = m.cpu.gpr r
  | .created kstack entry arg => m'.cpu.pc = entry ∧ m'.cpu.gpr a0 = arg ∧
      m'.cpu.gpr sp = kstack.stop - 4 ∧ ∀ r, r ≠ a0 → r ≠ sp → m'.cpu.gpr r = 0

/-- A context that waits to be resumed, and the stack of its thread. -/
structure Pending where
  stack : Area
  origin : Origin

/-- The machine, the stack of the running thread, and by address the contexts that were given
to the user handler or made by `kcontext` and are not yet resumed or started. -/
structure Sys where
  m : Machine
  stack : Area
  pending : Word → Option Pending

def Area.Has (a : Area) (b : Word) : Prop := a.start.toNat ≤ b.toNat ∧ b.toNat < a.stop.toNat

def Area.Apart (a a' : Area) : Prop :=
  a.stop.toNat ≤ a'.start.toNat ∨ a'.stop.toNat ≤ a.start.toNat

/-- A stack is in memory and holds nothing of `__am_asm_trap`. -/
structure Area.Usable (cfg : Config) (k : Kernel) (a : Area) : Prop where
  le : a.start.toNat ≤ a.stop.toNat
  inMem : InMem cfg a.start (a.stop.toNat - a.start.toNat)
  apart : ∀ b, a.Has b → ¬ k.Text b

/-- Nothing is written to `__am_asm_trap`, nor from a pending context on to the end of its
stack. -/
def Keeps (k : Kernel) (pending : Word → Option Pending) (v v' : Word → Byte) : Prop :=
  ∀ b, (k.Text b ∨ ∃ c p, pending c = some p ∧ c.toNat ≤ b.toNat ∧
    b.toNat < p.stack.stop.toNat) → v' b = v b

/-- Where the trap puts the context of the running thread. -/
def Sys.ctx (s : Sys) : Word := s.m.cpu.gpr sp - BitVec.ofNat 32 CONTEXT_SIZE

/-- The pending contexts once the running thread has been stopped. -/
def Sys.stopped (s : Sys) : Word → Option Pending :=
  Function.update s.pending s.ctx (some ⟨s.stack, .yielded s.m⟩)

/-- The running thread is at an `ecall`, with room for the trap frame on its stack. -/
structure Sys.AtEcall (cfg : Config) (s : Sys) : Prop where
  inMem : InMem cfg s.m.cpu.pc 4
  ecall : loadLE s.m.mem.view s.m.cpu.pc 4 = Insn.ecall.encode
  room : s.stack.start.toNat + CONTEXT_SIZE ≤ (s.m.cpu.gpr sp).toNat
  top : (s.m.cpu.gpr sp).toNat ≤ s.stack.stop.toNat

def yieldEvent : Event := ⟨.YIELD, 0, 0⟩

/-- On `EVENT_YIELD` the user handler returns a pending context and writes only below the
pending contexts. -/
def Schedules (cfg : Config) (k : Kernel) (s : Sys) (user : UserHandler) (m₁ : Machine) : Prop :=
  ∀ mem, irqEvent cfg (m₁.cpu.gpr a0) m₁.mem = .ok (yieldEvent, mem) →
    ∃ c p mem', user yieldEvent (m₁.cpu.gpr a0) mem = .ok (c, mem') ∧ s.stopped c = some p ∧
      Keeps k s.stopped mem.view mem'.view

/-- The compiled `__am_irq_handle`, entered in `m₁`, has returned `c` in `m₂`. -/
structure Returned (k : Kernel) (s : Sys) (c : Word) (mem : Mem) (m₁ m₂ : Machine) : Prop where
  pc : m₂.cpu.pc = m₁.cpu.gpr ra
  a0 : m₂.cpu.gpr a0 = c
  zero : m₂.cpu.gpr 0 = 0
  csr : m₂.cpu.csr = m₁.cpu.csr
  mem : Keeps k s.stopped mem.view m₂.mem.view

/-- From the `ecall` to the first instruction of `__am_irq_handle`. -/
def saveSteps : ℕ := 1 + (trapSave.length + 1)

/-- From the return of `__am_irq_handle` to the instruction after `mret`. -/
def restoreSteps : ℕ := trapRestore.length + 1

inductive Step (cfg : Config) (k : Kernel) (s : Sys) : Sys → Prop where
  /-- The running thread does anything that leaves `mtvec` and the pending contexts alone. -/
  | thread {m : Machine} (zero : m.cpu.gpr 0 = 0) (mtvec : m.cpu.csr.mtvec = k.trap)
      (keeps : Keeps k s.pending s.m.mem.view m.mem.view) : Step cfg k s { s with m := m }
  /-- `kcontext` on a stack that no thread has. -/
  | create {kstack : Area} {entry arg c : Word} {mem : Mem} (usable : kstack.Usable cfg k)
      (room : kstack.start.toNat + sizeofContext + 4 ≤ kstack.stop.toNat)
      (running : kstack.Apart s.stack)
      (fresh : ∀ c p, s.pending c = some p → kstack.Apart p.stack)
      (make : kcontext cfg s.m.mem kstack entry arg = .ok (c, mem)) :
      Step cfg k s { s with
        m := { s.m with mem := mem }
        pending := Function.update s.pending c (some ⟨kstack, .created kstack entry arg⟩) }
  /-- The running thread yields and the context at `c` is resumed. -/
  | yield {user : UserHandler} {m₁ m₂ m' : Machine} {c : Word} {p : Pending} {mem : Mem}
      (ecall : s.AtEcall cfg) (save : execSteps cfg saveSteps s.m = .ok m₁)
      (schedules : Schedules cfg k s user m₁)
      (handle : amIrqHandle cfg (some user) (m₁.cpu.gpr a0) m₁.mem = .ok (c, mem))
      (returned : Returned k s c mem m₁ m₂) (pending : s.stopped c = some p)
      (restore : execSteps cfg restoreSteps m₂ = .ok m') :
      Step cfg k s ⟨m', p.stack, Function.update s.stopped c none⟩

/-- The machine after `cte_init`, with one thread and no context yet. -/
structure Starts (cfg : Config) (k : Kernel) (s : Sys) : Prop where
  zero : s.m.cpu.gpr 0 = 0
  mtvec : s.m.cpu.csr.mtvec = k.trap
  code : Placed cfg k.trap k.code s.m.mem.view
  stack : s.stack.Usable cfg k
  pending : s.pending = fun _ => none

inductive Run (cfg : Config) (k : Kernel) : Sys → Prop where
  | start {s : Sys} (h : Starts cfg k s) : Run cfg k s
  | step {s s' : Sys} (run : Run cfg k s) (h : Step cfg k s s') : Run cfg k s'

end Ysyx.Am.Cte
