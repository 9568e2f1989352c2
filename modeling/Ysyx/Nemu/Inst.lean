import Ysyx.Nemu.Machine
import Ysyx.Nemu.Pattern

/-! The riscv32 decoder and interpreter (`inst.c`): operand decoding, the
`INSTPAT` table in its order, and the body of each entry. C's `int` is a
32-bit word; a left shift of a negative `int` is two's complement, as GCC
defines it, while a shift count outside `0 … 31` has no defined result. -/

namespace Ysyx.Nemu

open Bytes

inductive OperandType where
  | R | I | S | B | U | J | N
  deriving DecidableEq, Repr

structure Decode where
  pc : Word
  snpc : Word
  dnpc : Word
  inst : Word
  deriving DecidableEq, Repr

/-- What `decode_operand` leaves in `rd`, `src1`, `src2` and `imm`. -/
structure Operands where
  rd : Reg
  src1 : Word
  src2 : Word
  imm : Word
  deriving DecidableEq, Repr

def immI (i : Word) : Word := (SEXT (BITS i 31 20) 12).setWidth 32

def immS (i : Word) : Word := ((SEXT (BITS i 31 25) 7 <<< 5) ||| BITS i 11 7).setWidth 32

def immU (i : Word) : Word := (SEXT (BITS i 31 12) 20 <<< 12).setWidth 32

/-- The half of the branch offset: the bodies shift it left by one. -/
def immB (i : Word) : Word :=
  let imm12_11 : Word := ((SEXT (BITS i 31 31) 1 <<< 1) ||| BITS i 7 7).setWidth 32
  let imm12_5 : Word := ((imm12_11 <<< 6).signExtend 64 ||| BITS i 30 25).setWidth 32
  ((imm12_5 <<< 4).signExtend 64 ||| BITS i 11 8).setWidth 32

def immJ (i : Word) : Word :=
  let imm20_12 : Word := ((SEXT (BITS i 31 31) 1 <<< 8) ||| BITS i 19 12).setWidth 32
  let imm20_11 : Word := ((imm20_12 <<< 1).signExtend 64 ||| BITS i 20 20).setWidth 32
  ((imm20_11 <<< 10).signExtend 64 ||| BITS i 30 21).setWidth 32

def decodeOperand (cfg : Config) (m : Machine) (i : Word) (type : OperandType) :
    Except Fault Operands := do
  let rs1 : Reg := (BITS i 19 15).setWidth 5
  let rs2 : Reg := (BITS i 24 20).setWidth 5
  let rd : Reg := (BITS i 11 7).setWidth 5
  match type with
  | .R => return ⟨rd, ← gpr cfg m rs1, ← gpr cfg m rs2, 0⟩
  | .I => return ⟨rd, ← gpr cfg m rs1, 0, immI i⟩
  | .S => return ⟨rd, ← gpr cfg m rs1, ← gpr cfg m rs2, immS i⟩
  | .B => return ⟨rd, ← gpr cfg m rs1, ← gpr cfg m rs2, immB i⟩
  | .U => return ⟨rd, 0, 0, immU i⟩
  | .J => return ⟨rd, 0, 0, immJ i⟩
  | .N => return ⟨rd, 0, 0, 0⟩

inductive InstName where
  | add | sub | sll | slt | sltu | xor | srl | sra | or | and
  | addi | slli | slti | sltiu | xori | srli | srai | ori | andi
  | jalr | lb | lh | lw | lbu | lhu | sb | sh | sw
  | beq | bne | blt | bge | bltu | bgeu | lui | auipc | jal
  | mul | mulh | mulhu | div | divu | rem | remu
  | csrrw | csrrs | ecall | mret | ebreak | inv
  deriving DecidableEq, Repr

structure Instpat where
  pattern : String
  name : InstName
  type : OperandType

def instpats : List Instpat :=
  [⟨"0000000 ????? ????? 000 ????? 01100 11", .add, .R⟩,
   ⟨"0100000 ????? ????? 000 ????? 01100 11", .sub, .R⟩,
   ⟨"0000000 ????? ????? 001 ????? 01100 11", .sll, .R⟩,
   ⟨"0000000 ????? ????? 010 ????? 01100 11", .slt, .R⟩,
   ⟨"0000000 ????? ????? 011 ????? 01100 11", .sltu, .R⟩,
   ⟨"0000000 ????? ????? 100 ????? 01100 11", .xor, .R⟩,
   ⟨"0000000 ????? ????? 101 ????? 01100 11", .srl, .R⟩,
   ⟨"0100000 ????? ????? 101 ????? 01100 11", .sra, .R⟩,
   ⟨"0000000 ????? ????? 110 ????? 01100 11", .or, .R⟩,
   ⟨"0000000 ????? ????? 111 ????? 01100 11", .and, .R⟩,
   ⟨"??????? ????? ????? 000 ????? 00100 11", .addi, .I⟩,
   ⟨"0000000 ????? ????? 001 ????? 00100 11", .slli, .I⟩,
   ⟨"??????? ????? ????? 010 ????? 00100 11", .slti, .I⟩,
   ⟨"??????? ????? ????? 011 ????? 00100 11", .sltiu, .I⟩,
   ⟨"??????? ????? ????? 100 ????? 00100 11", .xori, .I⟩,
   ⟨"0000000 ????? ????? 101 ????? 00100 11", .srli, .I⟩,
   ⟨"0100000 ????? ????? 101 ????? 00100 11", .srai, .I⟩,
   ⟨"??????? ????? ????? 110 ????? 00100 11", .ori, .I⟩,
   ⟨"??????? ????? ????? 111 ????? 00100 11", .andi, .I⟩,
   ⟨"??????? ????? ????? 000 ????? 11001 11", .jalr, .I⟩,
   ⟨"??????? ????? ????? 000 ????? 00000 11", .lb, .I⟩,
   ⟨"??????? ????? ????? 001 ????? 00000 11", .lh, .I⟩,
   ⟨"??????? ????? ????? 010 ????? 00000 11", .lw, .I⟩,
   ⟨"??????? ????? ????? 100 ????? 00000 11", .lbu, .I⟩,
   ⟨"??????? ????? ????? 101 ????? 00000 11", .lhu, .I⟩,
   ⟨"??????? ????? ????? 000 ????? 01000 11", .sb, .S⟩,
   ⟨"??????? ????? ????? 001 ????? 01000 11", .sh, .S⟩,
   ⟨"??????? ????? ????? 010 ????? 01000 11", .sw, .S⟩,
   ⟨"??????? ????? ????? 000 ????? 11000 11", .beq, .B⟩,
   ⟨"??????? ????? ????? 001 ????? 11000 11", .bne, .B⟩,
   ⟨"??????? ????? ????? 100 ????? 11000 11", .blt, .B⟩,
   ⟨"??????? ????? ????? 101 ????? 11000 11", .bge, .B⟩,
   ⟨"??????? ????? ????? 110 ????? 11000 11", .bltu, .B⟩,
   ⟨"??????? ????? ????? 111 ????? 11000 11", .bgeu, .B⟩,
   ⟨"??????? ????? ????? ??? ????? 01101 11", .lui, .U⟩,
   ⟨"??????? ????? ????? ??? ????? 00101 11", .auipc, .U⟩,
   ⟨"??????? ????? ????? ??? ????? 11011 11", .jal, .J⟩,
   ⟨"0000001 ????? ????? 000 ????? 01100 11", .mul, .R⟩,
   ⟨"0000001 ????? ????? 001 ????? 01100 11", .mulh, .R⟩,
   ⟨"0000001 ????? ????? 011 ????? 01100 11", .mulhu, .R⟩,
   ⟨"0000001 ????? ????? 100 ????? 01100 11", .div, .R⟩,
   ⟨"0000001 ????? ????? 101 ????? 01100 11", .divu, .R⟩,
   ⟨"0000001 ????? ????? 110 ????? 01100 11", .rem, .R⟩,
   ⟨"0000001 ????? ????? 111 ????? 01100 11", .remu, .R⟩,
   ⟨"??????? ????? ????? 001 ????? 11100 11", .csrrw, .I⟩,
   ⟨"??????? ????? ????? 010 ????? 11100 11", .csrrs, .I⟩,
   ⟨"0000000 00000 00000 000 00000 11100 11", .ecall, .I⟩,
   ⟨"0011000 00010 00000 000 00000 11100 11", .mret, .R⟩,
   ⟨"0000000 00001 00000 000 00000 11100 11", .ebreak, .N⟩,
   ⟨"??????? ????? ????? ??? ????? ????? ??", .inv, .N⟩]

def shl (a n : Word) : Except Fault Word :=
  if n.toNat < 32 then .ok (a <<< n.toNat) else .error .undefined

def shr (a n : Word) : Except Fault Word :=
  if n.toNat < 32 then .ok (a >>> n.toNat) else .error .undefined

/-- `(int)a >> (int)n`. -/
def sar (a n : Word) : Except Fault Word :=
  if n.toNat < 32 then .ok (a.sshiftRight n.toNat) else .error .undefined

/-- The host traps on a zero divisor and on `INT_MIN / -1`. -/
def signedDiv (a b : Word) : Except Fault Word :=
  if b = 0 ∨ (a = BitVec.intMin 32 ∧ b = -1) then .error .trap else .ok (a.sdiv b)

def signedRem (a b : Word) : Except Fault Word :=
  if b = 0 ∨ (a = BitVec.intMin 32 ∧ b = -1) then .error .trap else .ok (a.srem b)

def unsignedDiv (a b : Word) : Except Fault Word :=
  if b = 0 then .error .trap else .ok (a / b)

def unsignedRem (a b : Word) : Except Fault Word :=
  if b = 0 then .error .trap else .ok (a % b)

def ofBool (b : Bool) : Word := if b then 1 else 0

/-- The registers that `csr_register` gives the address of. -/
inductive CsrName where
  | mstatus | mtvec | mepc | mcause
  deriving DecidableEq, Repr

def csrRegister (imm : Word) : Except Fault CsrName :=
  if imm = 0x300 then .ok .mstatus
  else if imm = 0x305 then .ok .mtvec
  else if imm = 0x341 then .ok .mepc
  else if imm = 0x342 then .ok .mcause
  else .error .panic

def CSRs.get (c : CSRs) : CsrName → Word
  | .mstatus => c.mstatus
  | .mtvec => c.mtvec
  | .mepc => c.mepc
  | .mcause => c.mcause

def CSRs.set (c : CSRs) (r : CsrName) (v : Word) : CSRs :=
  match r with
  | .mstatus => { c with mstatus := v }
  | .mtvec => { c with mtvec := v }
  | .mepc => { c with mepc := v }
  | .mcause => { c with mcause := v }

def Machine.setCsr (m : Machine) (r : CsrName) (v : Word) : Machine :=
  { m with cpu := { m.cpu with csr := m.cpu.csr.set r v } }

/-- The execute body of an `INSTPAT`: the machine and the `s->dnpc` it leaves. -/
def execBody (cfg : Config) (m : Machine) (s : Decode) (o : Operands) (name : InstName) :
    Except Fault (Machine × Word) :=
  let src1 := o.src1
  let src2 := o.src2
  let imm := o.imm
  -- `R(rd) = e`
  let assign (e : Except Fault Word) : Except Fault (Machine × Word) := do
    return (← setGpr cfg m o.rd (← e), s.dnpc)
  let load (len : ℕ) (ext : Word → Word) : Except Fault (Machine × Word) :=
    assign (do return ext (← vaddrRead cfg m.mem (src1 + imm) len))
  let store (len : ℕ) : Except Fault (Machine × Word) := do
    return ({ m with mem := ← vaddrWrite cfg m.mem (src1 + imm) len src2 }, s.dnpc)
  let branch (taken : Bool) : Except Fault (Machine × Word) :=
    .ok (m, if taken then s.pc + (imm <<< 1) else s.dnpc)
  match name with
  | .add => assign (.ok (src1 + src2))
  | .sub => assign (.ok (src1 - src2))
  | .sll => assign (shl src1 src2)
  | .slt => assign (.ok (ofBool (src1.slt src2)))
  | .sltu => assign (.ok (ofBool (src1.ult src2)))
  | .xor => assign (.ok (src1 ^^^ src2))
  | .srl => assign (shr src1 src2)
  | .sra => assign (sar src1 src2)
  | .or => assign (.ok (src1 ||| src2))
  | .and => assign (.ok (src1 &&& src2))
  | .addi => assign (.ok (src1 + imm))
  | .slli => assign (shl src1 (imm &&& 31))
  | .slti => assign (.ok (ofBool (src1.slt imm)))
  | .sltiu => assign (.ok (ofBool (src1.ult imm)))
  | .xori => assign (.ok (src1 ^^^ imm))
  | .srli => assign (shr src1 (imm &&& 31))
  | .srai => assign (sar src1 (imm &&& 31))
  | .ori => assign (.ok (src1 ||| imm))
  | .andi => assign (.ok (src1 &&& imm))
  | .jalr => do return (← setGpr cfg m o.rd (s.pc + 4), (src1 + imm) &&& ~~~1)
  | .lb => load 1 fun v => (SEXT (v.setWidth 64) 8).setWidth 32
  | .lh => load 2 fun v => (SEXT (v.setWidth 64) 16).setWidth 32
  | .lw => load 4 id
  | .lbu => load 1 id
  | .lhu => load 2 id
  | .sb => store 1
  | .sh => store 2
  | .sw => store 4
  | .beq => branch (src1 == src2)
  | .bne => branch (src1 != src2)
  | .blt => branch (src1.slt src2)
  | .bge => branch (src2.sle src1)
  | .bltu => branch (src1.ult src2)
  | .bgeu => branch (src2.ule src1)
  | .lui => assign (.ok imm)
  | .auipc => assign (.ok (s.pc + imm))
  | .jal => do return (← setGpr cfg m o.rd (s.pc + 4), s.pc + (imm <<< 1))
  | .mul => assign (.ok (src1 * src2))
  | .mulh =>
    assign (.ok (((src1.signExtend 64 * src2.signExtend 64).sshiftRight 32).setWidth 32))
  | .mulhu => assign (.ok (((src1.setWidth 64 * src2.setWidth 64) >>> 32).setWidth 32))
  | .div => assign (signedDiv src1 src2)
  | .divu => assign (unsignedDiv src1 src2)
  | .rem => assign (signedRem src1 src2)
  | .remu => assign (unsignedRem src1 src2)
  | .csrrw => do
    let r ← csrRegister imm
    let m' ← setGpr cfg m o.rd (m.cpu.csr.get r)
    return (m'.setCsr r src1, s.dnpc)
  | .csrrs => do
    let r ← csrRegister imm
    let m' ← setGpr cfg m o.rd (m.cpu.csr.get r)
    return (m'.setCsr r (m'.cpu.csr.get r ||| src1), s.dnpc)
  | .ecall => .ok (isaRaiseIntr m s.pc)
  | .mret => .ok (m, m.cpu.csr.mepc)
  | .ebreak => do return (setNemuState cfg m .END s.pc (← gpr cfg m 10), s.dnpc)
  | .inv => do return (← invalidInst cfg m s.pc, s.dnpc)

/-- A pattern that `pattern_decode` rejects would abort; see `instpats_decode`. -/
def Instpat.hits (p : Instpat) (inst : Word) : Bool :=
  match patternDecode p.pattern.toList with
  | .ok q => q.hits inst
  | .error _ => false

/-- `decode_exec`: the first pattern that hits is executed, and `R(0)` is reset. -/
def decodeExec (cfg : Config) (s : Decode) (m : Machine) : Except Fault (Decode × Machine) := do
  let s := { s with dnpc := s.snpc }
  match instpats.find? (·.hits s.inst) with
  | some p =>
    let o ← decodeOperand cfg m s.inst p.type
    let (m, dnpc) ← execBody cfg m s o p.name
    return ({ s with dnpc := dnpc }, ← setGpr cfg m 0 0)
  | none => return (s, ← setGpr cfg m 0 0)

def isaExecOnce (cfg : Config) (s : Decode) (m : Machine) : Except Fault (Decode × Machine) := do
  let inst ← vaddrIfetch cfg m.mem s.snpc 4
  decodeExec cfg { s with inst := inst, snpc := s.snpc + 4 } m

end Ysyx.Nemu
