import Ysyx.Lib.Bytes

/-! The user-level RV32I integer instructions other than fence, ecall, ebreak
and the CSR accesses: their syntax, their encodings, and the state change the
unprivileged specification gives each of them. -/

namespace Ysyx.Rv32

open Bytes

abbrev Reg := BitVec 5

inductive ROp where
  | add | sub | sll | slt | sltu | xor | srl | sra | or | and
  deriving DecidableEq, Repr

inductive IOp where
  | addi | slti | sltiu | xori | ori | andi
  deriving DecidableEq, Repr

inductive ShOp where
  | slli | srli | srai
  deriving DecidableEq, Repr

inductive BOp where
  | beq | bne | blt | bge | bltu | bgeu
  deriving DecidableEq, Repr

inductive LOp where
  | lb | lh | lw | lbu | lhu
  deriving DecidableEq, Repr

inductive SOp where
  | sb | sh | sw
  deriving DecidableEq, Repr

/-- `jal` and `branch` carry bits `[20:1]` and `[12:1]` of their offsets. -/
inductive Instr where
  | op (o : ROp) (rd rs1 rs2 : Reg)
  | opImm (o : IOp) (rd rs1 : Reg) (imm : BitVec 12)
  | shiftImm (o : ShOp) (rd rs1 : Reg) (shamt : BitVec 5)
  | lui (rd : Reg) (imm : BitVec 20)
  | auipc (rd : Reg) (imm : BitVec 20)
  | jal (rd : Reg) (imm : BitVec 20)
  | jalr (rd rs1 : Reg) (imm : BitVec 12)
  | branch (o : BOp) (rs1 rs2 : Reg) (imm : BitVec 12)
  | load (o : LOp) (rd rs1 : Reg) (imm : BitVec 12)
  | store (o : SOp) (rs1 rs2 : Reg) (imm : BitVec 12)
  deriving DecidableEq, Repr

def encodeR (f7 : BitVec 7) (rs2 rs1 : Reg) (f3 : BitVec 3) (rd : Reg) (op : BitVec 7) : Word :=
  f7 ++ rs2 ++ rs1 ++ f3 ++ rd ++ op

def encodeI (imm : BitVec 12) (rs1 : Reg) (f3 : BitVec 3) (rd : Reg) (op : BitVec 7) : Word :=
  imm ++ rs1 ++ f3 ++ rd ++ op

def encodeS (imm : BitVec 12) (rs2 rs1 : Reg) (f3 : BitVec 3) (op : BitVec 7) : Word :=
  imm.extractLsb' 5 7 ++ rs2 ++ rs1 ++ f3 ++ imm.extractLsb' 0 5 ++ op

def encodeB (imm : BitVec 12) (rs2 rs1 : Reg) (f3 : BitVec 3) (op : BitVec 7) : Word :=
  imm.extractLsb' 11 1 ++ imm.extractLsb' 4 6 ++ rs2 ++ rs1 ++ f3 ++
    imm.extractLsb' 0 4 ++ imm.extractLsb' 10 1 ++ op

def encodeU (imm : BitVec 20) (rd : Reg) (op : BitVec 7) : Word := imm ++ rd ++ op

def encodeJ (imm : BitVec 20) (rd : Reg) (op : BitVec 7) : Word :=
  imm.extractLsb' 19 1 ++ imm.extractLsb' 0 10 ++ imm.extractLsb' 10 1 ++
    imm.extractLsb' 11 8 ++ rd ++ op

def ROp.funct7 : ROp → BitVec 7
  | .sub | .sra => 0b0100000
  | _ => 0

def ROp.funct3 : ROp → BitVec 3
  | .add | .sub => 0b000
  | .sll => 0b001
  | .slt => 0b010
  | .sltu => 0b011
  | .xor => 0b100
  | .srl | .sra => 0b101
  | .or => 0b110
  | .and => 0b111

def IOp.funct3 : IOp → BitVec 3
  | .addi => 0b000
  | .slti => 0b010
  | .sltiu => 0b011
  | .xori => 0b100
  | .ori => 0b110
  | .andi => 0b111

def ShOp.funct7 : ShOp → BitVec 7
  | .srai => 0b0100000
  | _ => 0

def ShOp.funct3 : ShOp → BitVec 3
  | .slli => 0b001
  | _ => 0b101

def BOp.funct3 : BOp → BitVec 3
  | .beq => 0b000
  | .bne => 0b001
  | .blt => 0b100
  | .bge => 0b101
  | .bltu => 0b110
  | .bgeu => 0b111

def LOp.funct3 : LOp → BitVec 3
  | .lb => 0b000
  | .lh => 0b001
  | .lw => 0b010
  | .lbu => 0b100
  | .lhu => 0b101

def SOp.funct3 : SOp → BitVec 3
  | .sb => 0b000
  | .sh => 0b001
  | .sw => 0b010

def Instr.encode : Instr → Word
  | .op o rd rs1 rs2 => encodeR o.funct7 rs2 rs1 o.funct3 rd 0b0110011
  | .opImm o rd rs1 imm => encodeI imm rs1 o.funct3 rd 0b0010011
  | .shiftImm o rd rs1 shamt => encodeR o.funct7 shamt rs1 o.funct3 rd 0b0010011
  | .lui rd imm => encodeU imm rd 0b0110111
  | .auipc rd imm => encodeU imm rd 0b0010111
  | .jal rd imm => encodeJ imm rd 0b1101111
  | .jalr rd rs1 imm => encodeI imm rs1 0b000 rd 0b1100111
  | .branch o rs1 rs2 imm => encodeB imm rs2 rs1 o.funct3 0b1100011
  | .load o rd rs1 imm => encodeI imm rs1 o.funct3 rd 0b0000011
  | .store o rs1 rs2 imm => encodeS imm rs2 rs1 o.funct3 0b0100011

/-- The architectural state: `x 0` reads as zero and ignores writes. -/
@[ext] structure State where
  x : Reg → Word
  pc : Word
  mem : Word → Byte

def State.read (s : State) (r : Reg) : Word := if r = 0 then 0 else s.x r

def State.write (s : State) (r : Reg) (v : Word) : State :=
  { s with x := fun q => if q = 0 then 0 else if q = r then v else s.x q }

def State.next (s : State) : State := { s with pc := s.pc + 4 }

def ROp.eval : ROp → Word → Word → Word
  | .add, a, b => a + b
  | .sub, a, b => a - b
  | .sll, a, b => a <<< (b.toNat % 32)
  | .slt, a, b => if a.slt b then 1 else 0
  | .sltu, a, b => if a.ult b then 1 else 0
  | .xor, a, b => a ^^^ b
  | .srl, a, b => a >>> (b.toNat % 32)
  | .sra, a, b => a.sshiftRight (b.toNat % 32)
  | .or, a, b => a ||| b
  | .and, a, b => a &&& b

def IOp.eval : IOp → Word → Word → Word
  | .addi, a, b => a + b
  | .slti, a, b => if a.slt b then 1 else 0
  | .sltiu, a, b => if a.ult b then 1 else 0
  | .xori, a, b => a ^^^ b
  | .ori, a, b => a ||| b
  | .andi, a, b => a &&& b

def ShOp.eval : ShOp → Word → BitVec 5 → Word
  | .slli, a, n => a <<< n.toNat
  | .srli, a, n => a >>> n.toNat
  | .srai, a, n => a.sshiftRight n.toNat

def BOp.taken : BOp → Word → Word → Bool
  | .beq, a, b => a == b
  | .bne, a, b => a != b
  | .blt, a, b => a.slt b
  | .bge, a, b => b.sle a
  | .bltu, a, b => a.ult b
  | .bgeu, a, b => b.ule a

def LOp.size : LOp → ℕ
  | .lb | .lbu => 1
  | .lh | .lhu => 2
  | .lw => 4

/-- What a load puts in `rd`, from the zero-extended value it read. -/
def LOp.extend : LOp → Word → Word
  | .lb, v => (v.setWidth 8).signExtend 32
  | .lh, v => (v.setWidth 16).signExtend 32
  | .lw, v | .lbu, v | .lhu, v => v

def SOp.size : SOp → ℕ
  | .sb => 1
  | .sh => 2
  | .sw => 4

/-- The byte offset that bits `[n:1]` of a jump or branch immediate stand for. -/
def offset {n : ℕ} (imm : BitVec n) : Word := (imm ++ 0#1).signExtend 32

def Instr.exec : Instr → State → State
  | .op o rd rs1 rs2, s => (s.write rd (o.eval (s.read rs1) (s.read rs2))).next
  | .opImm o rd rs1 imm, s => (s.write rd (o.eval (s.read rs1) (imm.signExtend 32))).next
  | .shiftImm o rd rs1 shamt, s => (s.write rd (o.eval (s.read rs1) shamt)).next
  | .lui rd imm, s => (s.write rd (imm ++ 0#12)).next
  | .auipc rd imm, s => (s.write rd (s.pc + (imm ++ 0#12))).next
  | .jal rd imm, s => { s.write rd (s.pc + 4) with pc := s.pc + offset imm }
  | .jalr rd rs1 imm, s =>
      { s.write rd (s.pc + 4) with pc := (s.read rs1 + imm.signExtend 32) &&& ~~~1 }
  | .branch o rs1 rs2 imm, s =>
      if o.taken (s.read rs1) (s.read rs2) then { s with pc := s.pc + offset imm } else s.next
  | .load o rd rs1 imm, s =>
      (s.write rd (o.extend (loadLE s.mem (s.read rs1 + imm.signExtend 32) o.size))).next
  | .store o rs1 rs2 imm, s =>
      { s with mem := storeLE s.mem (s.read rs1 + imm.signExtend 32) o.size (s.read rs2) }.next

def Instr.access : Instr → State → Option (Word × ℕ)
  | .load o _ rs1 imm, s => some (s.read rs1 + imm.signExtend 32, o.size)
  | .store o rs1 _ imm, s => some (s.read rs1 + imm.signExtend 32, o.size)
  | _, _ => none

end Ysyx.Rv32
