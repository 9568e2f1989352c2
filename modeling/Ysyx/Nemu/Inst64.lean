import Ysyx.Lib.Rv64
import Ysyx.Nemu.Inst

/-! The riscv64 decoder and interpreter (`isa/riscv64/inst.c`), whose words and registers have 64
bits over the same memory: operand decoding, the `INSTPAT` table in its order, and the body of each
entry. -/

namespace Ysyx.Nemu.Riscv64

open Bytes

abbrev DWord := BitVec 64

/-- What a `paddr_t` keeps of a 64-bit value. -/
def paddr (cfg : Config) (a : DWord) : DWord := if PMEM64 cfg then a else (a.setWidth 32).setWidth 64

def inPmem (cfg : Config) (addr : DWord) : Except Fault Bool :=
  if FLASH_BASE ≤ addr.toNat ∧ addr.toNat < FLASH_BASE + FLASH_SIZE then
    .ok (decide ((paddr cfg (addr - cfg.MBASE.setWidth 64)).toNat < cfg.MSIZE))
  else if SRAM_BASE ≤ addr.toNat ∧ addr.toNat < SRAM_BASE + SRAM_SIZE then
    .ok (decide (addr.toNat - SRAM_BASE < SRAM_SIZE))
  else .error .assertion

/-- What `in_pmem` accepts is below `2 ^ 32`, and no entry of the table reads eight bytes. -/
def paddrRead (cfg : Config) (m : Mem) (addr : DWord) (len : ℕ) : Except Fault DWord := do
  if ← inPmem cfg addr then return (← pmemRead cfg m (addr.setWidth 32) len).setWidth 64
  else .error .panic

def paddrWrite (cfg : Config) (m : Mem) (addr : DWord) (len : ℕ) (data : DWord) :
    Except Fault Mem := do
  if ← inPmem cfg addr then pmemWrite cfg m (addr.setWidth 32) len (data.setWidth 32)
  else .error .panic

def vaddrIfetch (cfg : Config) (m : Mem) (addr : DWord) (len : ℕ) : Except Fault DWord :=
  paddrRead cfg m (paddr cfg addr) len

def vaddrRead (cfg : Config) (m : Mem) (addr : DWord) (len : ℕ) : Except Fault DWord :=
  paddrRead cfg m (paddr cfg addr) len

def vaddrWrite (cfg : Config) (m : Mem) (addr : DWord) (len : ℕ) (data : DWord) : Except Fault Mem :=
  paddrWrite cfg m (paddr cfg addr) len data

@[ext] structure CPUState where
  gpr : Reg → DWord
  pc : DWord

structure NEMUState where
  state : RunState
  haltPc : DWord
  haltRet : Word

structure Machine where
  cpu : CPUState
  mem : Mem
  nemuState : NEMUState
  isSkipRef : Bool
  skipDutNrInst : ℤ

def gpr (cfg : Config) (m : Machine) (idx : Reg) : Except Fault DWord := do
  return m.cpu.gpr (← checkRegIdx cfg idx)

def Machine.setGpr (m : Machine) (idx : Reg) (v : DWord) : Machine :=
  { m with cpu := { m.cpu with gpr := Function.update m.cpu.gpr idx v } }

def setGpr (cfg : Config) (m : Machine) (idx : Reg) (v : DWord) : Except Fault Machine := do
  return m.setGpr (← checkRegIdx cfg idx) v

def difftestSkipRef (cfg : Config) (m : Machine) : Machine :=
  if cfg.DIFFTEST then { m with isSkipRef := true, skipDutNrInst := 0 } else m

/-- `halt_ret` is an `int`. -/
def setNemuState (cfg : Config) (m : Machine) (state : RunState) (pc haltRet : DWord) : Machine :=
  { difftestSkipRef cfg m with nemuState := ⟨state, pc, haltRet.setWidth 32⟩ }

def invalidInst (cfg : Config) (m : Machine) (thispc : DWord) : Except Fault Machine := do
  let _ ← vaddrIfetch cfg m.mem thispc 4
  let _ ← vaddrIfetch cfg m.mem (thispc + 4) 4
  return setNemuState cfg m .ABORT thispc (-1)

structure Decode where
  pc : DWord
  snpc : DWord
  dnpc : DWord
  inst : Word

structure Operands where
  rd : Reg
  src1 : DWord
  src2 : DWord
  imm : DWord

def immI (i : Word) : DWord := SEXT (BITS i 31 20) 12

def immU (i : Word) : DWord := SEXT (BITS i 31 12) 20 <<< 12

def immS (i : Word) : DWord := (SEXT (BITS i 31 25) 7 <<< 5) ||| BITS i 11 7

def immJ (i : Word) : DWord :=
  (SEXT (BITS i 31 31) 1 <<< 20) ||| (BITS i 30 21 <<< 1) ||| (BITS i 20 20 <<< 11) |||
    (BITS i 19 12 <<< 12)

def immB (i : Word) : DWord :=
  (SEXT (BITS i 31 31) 1 <<< 12) ||| (BITS i 30 25 <<< 5) ||| (BITS i 11 8 <<< 1) |||
    (BITS i 7 7 <<< 11)

def decodeOperand (cfg : Config) (m : Machine) (i : Word) (type : OperandType) :
    Except Fault Operands := do
  let rs1 : Reg := (BITS i 19 15).setWidth 5
  let rs2 : Reg := (BITS i 24 20).setWidth 5
  let rd : Reg := (BITS i 11 7).setWidth 5
  match type with
  | .I => return ⟨rd, ← gpr cfg m rs1, 0, immI i⟩
  | .U => return ⟨rd, 0, 0, immU i⟩
  | .S => return ⟨rd, ← gpr cfg m rs1, ← gpr cfg m rs2, immS i⟩
  | .J => return ⟨rd, 0, 0, immJ i⟩
  | .B => return ⟨rd, ← gpr cfg m rs1, ← gpr cfg m rs2, immB i⟩
  | .R => return ⟨rd, ← gpr cfg m rs1, ← gpr cfg m rs2, 0⟩
  | .N => return ⟨rd, 0, 0, 0⟩

inductive InstName where
  | li | auipc | lui | lb | lbu | sb | jal | addi | add | sw | jalr | lw | sub | sltiu | beq | bne
  | sltu | sh | sra | srai | andi | sll | xori | bge | srl | srli | bgeu | slli | mul | mulh | div
  | divu | rem | blt | bltu | slt | lh | lhu | remu | and | xor | or | ebreak | inv
  deriving DecidableEq, Repr

structure Instpat where
  pattern : String
  name : InstName
  type : OperandType

def instpats : List Instpat :=
  [⟨"??????? ????? ????? 000 ????? 00100 11", .li, .I⟩,
   ⟨"??????? ????? ????? ??? ????? 00101 11", .auipc, .U⟩,
   ⟨"??????? ????? ????? ??? ????? 01101 11", .lui, .U⟩,
   ⟨"??????? ????? ????? 000 ????? 00000 11", .lb, .I⟩,
   ⟨"??????? ????? ????? 100 ????? 00000 11", .lbu, .I⟩,
   ⟨"??????? ????? ????? 000 ????? 01000 11", .sb, .S⟩,
   ⟨"??????? ????? ????? ??? ????? 11011 11", .jal, .J⟩,
   ⟨"??????? ????? ????? 000 ????? 00100 11", .addi, .I⟩,
   ⟨"0000000 ????? ????? 000 ????? 01100 11", .add, .R⟩,
   ⟨"??????? ????? ????? 010 ????? 01000 11", .sw, .S⟩,
   ⟨"??????? ????? ????? 000 ????? 11001 11", .jalr, .I⟩,
   ⟨"??????? ????? ????? 010 ????? 00000 11", .lw, .I⟩,
   ⟨"0100000 ????? ????? 000 ????? 01100 11", .sub, .R⟩,
   ⟨"??????? ????? ????? 011 ????? 00100 11", .sltiu, .I⟩,
   ⟨"??????? ????? ????? 000 ????? 11000 11", .beq, .B⟩,
   ⟨"??????? ????? ????? 001 ????? 11000 11", .bne, .B⟩,
   ⟨"0000000 ????? ????? 011 ????? 01100 11", .sltu, .R⟩,
   ⟨"??????? ????? ????? 001 ????? 01000 11", .sh, .S⟩,
   ⟨"0100000 ????? ????? 101 ????? 01100 11", .sra, .R⟩,
   ⟨"0100000 ????? ????? 101 ????? 00100 11", .srai, .I⟩,
   ⟨"??????? ????? ????? 111 ????? 00100 11", .andi, .I⟩,
   ⟨"0000000 ????? ????? 001 ????? 01100 11", .sll, .R⟩,
   ⟨"??????? ????? ????? 100 ????? 00100 11", .xori, .I⟩,
   ⟨"??????? ????? ????? 101 ????? 11000 11", .bge, .B⟩,
   ⟨"0000000 ????? ????? 101 ????? 01100 11", .srl, .R⟩,
   ⟨"0000000 ????? ????? 101 ????? 00100 11", .srli, .I⟩,
   ⟨"??????? ????? ????? 111 ????? 11000 11", .bgeu, .B⟩,
   ⟨"0000000 ????? ????? 001 ????? 00100 11", .slli, .I⟩,
   ⟨"0000001 ????? ????? 000 ????? 01100 11", .mul, .R⟩,
   ⟨"0000001 ????? ????? 001 ????? 01100 11", .mulh, .R⟩,
   ⟨"0000001 ????? ????? 100 ????? 01100 11", .div, .R⟩,
   ⟨"0000001 ????? ????? 101 ????? 01100 11", .divu, .R⟩,
   ⟨"0000001 ????? ????? 110 ????? 01100 11", .rem, .R⟩,
   ⟨"??????? ????? ????? 100 ????? 11000 11", .blt, .B⟩,
   ⟨"??????? ????? ????? 110 ????? 11000 11", .bltu, .B⟩,
   ⟨"0000000 ????? ????? 010 ????? 01100 11", .slt, .R⟩,
   ⟨"??????? ????? ????? 001 ????? 00000 11", .lh, .I⟩,
   ⟨"??????? ????? ????? 101 ????? 00000 11", .lhu, .I⟩,
   ⟨"0000001 ????? ????? 111 ????? 01100 11", .remu, .R⟩,
   ⟨"0000000 ????? ????? 111 ????? 01100 11", .and, .R⟩,
   ⟨"0000000 ????? ????? 100 ????? 01100 11", .xor, .R⟩,
   ⟨"0000000 ????? ????? 110 ????? 01100 11", .or, .R⟩,
   ⟨"0000000 00001 00000 000 00000 11100 11", .ebreak, .N⟩,
   ⟨"??????? ????? ????? ??? ????? ????? ??", .inv, .N⟩]

/-- `BITS` of a `uint64_t`. -/
def BITS64 (x : DWord) (hi lo : ℕ) : DWord := (x >>> lo) &&& BITMASK (hi - lo + 1)

def shl64 (a n : DWord) : Except Fault DWord :=
  if n.toNat < 64 then .ok (a <<< n.toNat) else .error .undefined

def shr64 (a n : DWord) : Except Fault DWord :=
  if n.toNat < 64 then .ok (a >>> n.toNat) else .error .undefined

/-- The expression of `sra` and `srai`. -/
def sra64 (a n : DWord) : Except Fault DWord := do
  return (← shl64 (SEXT (BITS64 a 31 31) 1) (32 - n)) ||| (← shr64 a n)

def ofBool (b : Bool) : DWord := if b then 1 else 0

/-- The execute body of an `INSTPAT`: the machine and the `s->dnpc` it leaves. A cast to `uint32_t`
or `int32_t` keeps the low half, which is extended again where it meets 64 bits. -/
def execBody (cfg : Config) (m : Machine) (s : Decode) (o : Operands) (name : InstName) :
    Except Fault (Machine × DWord) :=
  let src1 := o.src1
  let src2 := o.src2
  let imm := o.imm
  let low (x : DWord) : Word := x.setWidth 32
  -- `R(rd) = e`
  let assign (e : Except Fault DWord) : Except Fault (Machine × DWord) := do
    return (← setGpr cfg m o.rd (← e), s.dnpc)
  let load (len : ℕ) (ext : DWord → DWord) : Except Fault (Machine × DWord) :=
    assign (do return ext (← vaddrRead cfg m.mem (src1 + imm) len))
  let store (len : ℕ) : Except Fault (Machine × DWord) := do
    return ({ m with mem := ← vaddrWrite cfg m.mem (src1 + imm) len src2 }, s.dnpc)
  let branch (taken : Bool) : Except Fault (Machine × DWord) :=
    .ok (m, s.dnpc + if taken then imm - 4 else 0)
  match name with
  | .li => assign (.ok (src1 + imm))
  | .auipc => assign (.ok (s.pc + imm))
  | .lui => assign (.ok imm)
  | .lb => load 1 (SEXT · 8)
  | .lbu => load 1 id
  | .sb => store 1
  | .jal => do return (← setGpr cfg m o.rd (s.pc + 4), s.dnpc + (imm - 4))
  | .addi => assign (.ok (src1 + imm))
  | .add => assign (.ok (src1 + src2))
  | .sw => store 4
  | .jalr => do return (← setGpr cfg m o.rd (s.pc + 4), (src1 + imm) &&& ~~~1)
  | .lw => load 4 (SEXT · 32)
  | .sub => assign (.ok (src1 - src2))
  | .sltiu => assign (.ok (ofBool ((low src1).ult (low imm))))
  | .beq => branch (src1 == src2)
  | .bne => branch (src1 != src2)
  | .sltu => assign (.ok (ofBool ((low src1).ult (low src2))))
  | .sh => store 2
  | .sra => assign (sra64 src1 (BITS64 src2 4 0))
  | .srai => assign (sra64 src1 (BITS64 imm 4 0))
  | .andi => assign (.ok (imm &&& src1))
  | .sll => assign (shl64 src1 (BITS64 src2 4 0))
  | .xori => assign (.ok (src1 ^^^ imm))
  | .bge => branch ((low src2).sle (low src1))
  | .srl => assign (do return (← shr (low src1) (low (BITS64 src2 4 0))).setWidth 64)
  | .srli => assign (shr64 src1 ((low imm).setWidth 64))
  | .bgeu => branch ((low src2).ule (low src1))
  | .slli => assign (shl64 src1 imm)
  | .mul => assign (.ok (src1 * src2))
  | .mulh =>
    let tmp : DWord := (low src1).signExtend 64 * (low src2).signExtend 64
    assign (.ok (tmp.sshiftRight 32 &&& BITMASK 32))
  | .div => assign (do return (← signedDiv (low src1) (low src2)).signExtend 64)
  | .divu => assign (if src2 = 0 then .error .trap else .ok ((low src1).setWidth 64 / src2))
  | .rem => assign (do return (← signedRem (low src1) (low src2)).signExtend 64)
  | .blt => branch ((low src1).slt (low src2))
  | .bltu => branch ((low src1).ult (low src2))
  | .slt => assign (.ok (ofBool ((low src1).slt (low src2))))
  | .lh => load 2 (SEXT · 16)
  | .lhu => load 2 id
  | .remu => assign (do return (← unsignedRem (low src1) (low src2)).setWidth 64)
  | .and => assign (.ok (src1 &&& src2))
  | .xor => assign (.ok (src1 ^^^ src2))
  | .or => assign (.ok (src1 ||| src2))
  | .ebreak => do return (setNemuState cfg m .END s.pc (← gpr cfg m 10), s.dnpc)
  | .inv => do return (← invalidInst cfg m s.pc, s.dnpc)

def Instpat.hits (p : Instpat) (inst : Word) : Bool :=
  match patternDecode p.pattern.toList with
  | .ok q => q.hits inst
  | .error _ => false

/-- The entry that is executed. -/
def selected (inst : Word) : Option Instpat := instpats.find? (·.hits inst)

def decodeExec (cfg : Config) (s : Decode) (m : Machine) : Except Fault (Decode × Machine) := do
  let s := { s with dnpc := s.snpc }
  match selected s.inst with
  | some p =>
    let o ← decodeOperand cfg m s.inst p.type
    let (m, dnpc) ← execBody cfg m s o p.name
    return ({ s with dnpc := dnpc }, ← setGpr cfg m 0 0)
  | none => return (s, ← setGpr cfg m 0 0)

def isaExecOnce (cfg : Config) (s : Decode) (m : Machine) : Except Fault (Decode × Machine) := do
  let inst ← vaddrIfetch cfg m.mem s.snpc 4
  decodeExec cfg { s with inst := inst.setWidth 32, snpc := s.snpc + 4 } m

end Ysyx.Nemu.Riscv64
