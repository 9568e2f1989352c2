import Ysyx.Lib.Rv32Fields
import Ysyx.Lib.Rv32M

/-! The instructions of RV32IM on 64-bit registers, as RV64IM has them: how words encode them and the
state change the unprivileged specification gives each of them. -/

namespace Ysyx.Rv64

open Bytes Rv32

abbrev DWord := BitVec 64

/-- `jal` and `branch` carry bits `[20:1]` and `[12:1]` of their offsets. -/
inductive Instr where
  | op (o : ROp) (rd rs1 rs2 : Reg)
  | mop (o : MOp) (rd rs1 rs2 : Reg)
  | opImm (o : IOp) (rd rs1 : Reg) (imm : BitVec 12)
  | shiftImm (o : ShOp) (rd rs1 : Reg) (shamt : BitVec 6)
  | lui (rd : Reg) (imm : BitVec 20)
  | auipc (rd : Reg) (imm : BitVec 20)
  | jal (rd : Reg) (imm : BitVec 20)
  | jalr (rd rs1 : Reg) (imm : BitVec 12)
  | branch (o : BOp) (rs1 rs2 : Reg) (imm : BitVec 12)
  | load (o : LOp) (rd rs1 : Reg) (imm : BitVec 12)
  | store (o : SOp) (rs1 rs2 : Reg) (imm : BitVec 12)
  deriving DecidableEq, Repr

section Decoding

variable (w : Word)

def immI : BitVec 12 := w.extractLsb' 20 12

def immS : BitVec 12 := w.extractLsb' 25 7 ++ w.extractLsb' 7 5

def immB : BitVec 12 :=
  w.extractLsb' 31 1 ++ w.extractLsb' 7 1 ++ w.extractLsb' 25 6 ++ w.extractLsb' 8 4

def immU : BitVec 20 := w.extractLsb' 12 20

def immJ : BitVec 20 :=
  w.extractLsb' 31 1 ++ w.extractLsb' 12 8 ++ w.extractLsb' 20 1 ++ w.extractLsb' 21 10

/-- A shift by a constant has six bits of it, and six bits above that select the shift. -/
def shamt : BitVec 6 := w.extractLsb' 20 6

def funct6 : BitVec 6 := w.extractLsb' 26 6

def decodeOp : Option Instr :=
  ([.add, .sub, .sll, .slt, .sltu, .xor, .srl, .sra, .or, .and].find? fun o : ROp =>
    o.funct7 == funct7 w && o.funct3 == funct3 w).map fun o => .op o (rd w) (rs1 w) (rs2 w)

def decodeMop : Option Instr :=
  ([.mul, .mulh, .mulhsu, .mulhu, .div, .divu, .rem, .remu].find? fun o : MOp =>
    o.funct3 == funct3 w).map fun o => .mop o (rd w) (rs1 w) (rs2 w)

def decodeImm : Option Instr :=
  ([.addi, .slti, .sltiu, .xori, .ori, .andi].find? fun o : IOp => o.funct3 == funct3 w).map
    fun o => .opImm o (rd w) (rs1 w) (immI w)

def decodeShift : Option Instr :=
  ([.slli, .srli, .srai].find? fun o : ShOp =>
    o.funct7.extractLsb' 1 6 == funct6 w && o.funct3 == funct3 w).map fun o =>
      .shiftImm o (rd w) (rs1 w) (shamt w)

def decodeBranch : Option Instr :=
  ([.beq, .bne, .blt, .bge, .bltu, .bgeu].find? fun o : BOp => o.funct3 == funct3 w).map
    fun o => .branch o (rs1 w) (rs2 w) (immB w)

def decodeLoad : Option Instr :=
  ([.lb, .lh, .lw, .lbu, .lhu].find? fun o : LOp => o.funct3 == funct3 w).map
    fun o => .load o (rd w) (rs1 w) (immI w)

def decodeStore : Option Instr :=
  ([.sb, .sh, .sw].find? fun o : SOp => o.funct3 == funct3 w).map
    fun o => .store o (rs1 w) (rs2 w) (immS w)

def decode : Option Instr :=
  match opcode w with
  | 0b0110011 => if funct7 w = 1 then decodeMop w else decodeOp w
  | 0b0010011 => if funct3 w = 0b001 ∨ funct3 w = 0b101 then decodeShift w else decodeImm w
  | 0b0110111 => some (.lui (rd w) (immU w))
  | 0b0010111 => some (.auipc (rd w) (immU w))
  | 0b1101111 => some (.jal (rd w) (immJ w))
  | 0b1100111 => if funct3 w = 0 then some (.jalr (rd w) (rs1 w) (immI w)) else none
  | 0b1100011 => decodeBranch w
  | 0b0000011 => decodeLoad w
  | 0b0100011 => decodeStore w
  | _ => none

end Decoding

/-- The architectural state: `x 0` reads as zero and ignores writes. -/
@[ext] structure State where
  x : Reg → DWord
  pc : DWord
  mem : DWord → Byte

def State.read (s : State) (r : Reg) : DWord := if r = 0 then 0 else s.x r

def State.write (s : State) (r : Reg) (v : DWord) : State :=
  { s with x := fun q => if q = 0 then 0 else if q = r then v else s.x q }

def State.next (s : State) : State := { s with pc := s.pc + 4 }

def ropEval : ROp → DWord → DWord → DWord
  | .add, a, b => a + b
  | .sub, a, b => a - b
  | .sll, a, b => a <<< (b.toNat % 64)
  | .slt, a, b => if a.slt b then 1 else 0
  | .sltu, a, b => if a.ult b then 1 else 0
  | .xor, a, b => a ^^^ b
  | .srl, a, b => a >>> (b.toNat % 64)
  | .sra, a, b => a.sshiftRight (b.toNat % 64)
  | .or, a, b => a ||| b
  | .and, a, b => a &&& b

/-- The upper products round towards minus infinity and the quotients towards zero. -/
def mopEval : MOp → DWord → DWord → DWord
  | .mul, a, b => BitVec.ofInt 64 (a.toInt * b.toInt)
  | .mulh, a, b => BitVec.ofInt 64 (a.toInt * b.toInt / 2 ^ 64)
  | .mulhsu, a, b => BitVec.ofInt 64 (a.toInt * b.toNat / 2 ^ 64)
  | .mulhu, a, b => BitVec.ofNat 64 (a.toNat * b.toNat / 2 ^ 64)
  | .div, a, b => if b = 0 then -1 else BitVec.ofInt 64 (a.toInt.tdiv b.toInt)
  | .divu, a, b => if b = 0 then -1 else BitVec.ofNat 64 (a.toNat / b.toNat)
  | .rem, a, b => if b = 0 then a else BitVec.ofInt 64 (a.toInt.tmod b.toInt)
  | .remu, a, b => if b = 0 then a else BitVec.ofNat 64 (a.toNat % b.toNat)

def iopEval : IOp → DWord → DWord → DWord
  | .addi, a, b => a + b
  | .slti, a, b => if a.slt b then 1 else 0
  | .sltiu, a, b => if a.ult b then 1 else 0
  | .xori, a, b => a ^^^ b
  | .ori, a, b => a ||| b
  | .andi, a, b => a &&& b

def shEval : ShOp → DWord → BitVec 6 → DWord
  | .slli, a, n => a <<< n.toNat
  | .srli, a, n => a >>> n.toNat
  | .srai, a, n => a.sshiftRight n.toNat

def taken : BOp → DWord → DWord → Bool
  | .beq, a, b => a == b
  | .bne, a, b => a != b
  | .blt, a, b => a.slt b
  | .bge, a, b => b.sle a
  | .bltu, a, b => a.ult b
  | .bgeu, a, b => b.ule a

def loadExtend : LOp → Word → DWord
  | .lb, v => (v.setWidth 8).signExtend 64
  | .lh, v => (v.setWidth 16).signExtend 64
  | .lw, v => v.signExtend 64
  | .lbu, v | .lhu, v => v.setWidth 64

def readLE (m : DWord → Byte) (a : DWord) (n : ℕ) : Word :=
  leWord (fun k => m (a + BitVec.ofNat 64 k)) n

def writeLE (m : DWord → Byte) (a : DWord) (n : ℕ) (d : DWord) : DWord → Byte :=
  fun b => if (b - a).toNat < n then byteOf (d.setWidth 32) (b - a).toNat else m b

/-- The byte offset that bits `[n:1]` of a jump or branch immediate stand for. -/
def offset {n : ℕ} (imm : BitVec n) : DWord := (imm ++ 0#1).signExtend 64

def Instr.exec : Instr → State → State
  | .op o rd rs1 rs2, s => (s.write rd (ropEval o (s.read rs1) (s.read rs2))).next
  | .mop o rd rs1 rs2, s => (s.write rd (mopEval o (s.read rs1) (s.read rs2))).next
  | .opImm o rd rs1 imm, s => (s.write rd (iopEval o (s.read rs1) (imm.signExtend 64))).next
  | .shiftImm o rd rs1 shamt, s => (s.write rd (shEval o (s.read rs1) shamt)).next
  | .lui rd imm, s => (s.write rd ((imm ++ 0#12).signExtend 64)).next
  | .auipc rd imm, s => (s.write rd (s.pc + (imm ++ 0#12).signExtend 64)).next
  | .jal rd imm, s => { s.write rd (s.pc + 4) with pc := s.pc + offset imm }
  | .jalr rd rs1 imm, s =>
      { s.write rd (s.pc + 4) with pc := (s.read rs1 + imm.signExtend 64) &&& ~~~1 }
  | .branch o rs1 rs2 imm, s =>
      if taken o (s.read rs1) (s.read rs2) then { s with pc := s.pc + offset imm } else s.next
  | .load o rd rs1 imm, s =>
      (s.write rd (loadExtend o (readLE s.mem (s.read rs1 + imm.signExtend 64) o.size))).next
  | .store o rs1 rs2 imm, s =>
      { s with mem := writeLE s.mem (s.read rs1 + imm.signExtend 64) o.size (s.read rs2) }.next

def divDefined : MOp → DWord → DWord → Prop
  | .div, a, b | .rem, a, b => b ≠ 0 ∧ ¬ (a = BitVec.intMin 64 ∧ b = -1)
  | .divu, _, b | .remu, _, b => b ≠ 0
  | _, _, _ => True

def Instr.DivDefined : Instr → State → Prop
  | .mop o _ rs1 rs2, s => divDefined o (s.read rs1) (s.read rs2)
  | _, _ => True

def Instr.access : Instr → State → Option (DWord × ℕ)
  | .load o _ rs1 imm, s => some (s.read rs1 + imm.signExtend 64, o.size)
  | .store o rs1 _ imm, s => some (s.read rs1 + imm.signExtend 64, o.size)
  | _, _ => none

/-- The access of the instruction, if it makes one, is one the memory has. -/
def Accessible (mapped : DWord → ℕ → Prop) (i : Instr) (s : State) : Prop :=
  ∀ a n, i.access s = some (a, n) → mapped a n

/-- One step of the machine on this memory; an access that it does not have is no step. -/
def Step (mapped : DWord → ℕ → Prop) (i : Instr) (s s' : State) : Prop :=
  Accessible mapped i s ∧ s' = i.exec s

end Ysyx.Rv64
