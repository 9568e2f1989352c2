import Ysyx.Lib.Rv32Fields
import Ysyx.Lib.Sync

/-! The RTL core `ysyx_25080202`, module by module. Registers are records and
each clocked block is a function from the registers and wires it reads to its
next registers; the combinational blocks are functions of the registers. The
outputs that the top module leaves unconnected are not modelled. -/

namespace Ysyx.Npc

open Bytes Rv32

structure IDU where
  rType : Bool
  iTypeArith : Bool
  lTypeLoad : Bool
  sType : Bool
  uType : Bool
  iType : Bool
  bType : Bool
  jType : Bool
  iJalr : Bool
  uLui : Bool
  rAdd : Bool
  lLw : Bool
  lLbu : Bool
  iAdd : Bool
  sSw : Bool
  sSb : Bool
  iCsrrw : Bool
  iCsrrs : Bool
  csrAddr : BitVec 12
  imm : Word
  r1 : Reg
  r2 : Reg
  rd : Reg
  wmask : BitVec 4
  deriving DecidableEq, Repr

def immI (inst : Word) : Word := (inst.extractLsb' 20 12).signExtend 32

def immS (inst : Word) : Word := (inst.extractLsb' 25 7 ++ inst.extractLsb' 7 5).signExtend 32

def immB (inst : Word) : Word :=
  (inst.extractLsb' 31 1 ++ inst.extractLsb' 7 1 ++ inst.extractLsb' 25 6 ++
    inst.extractLsb' 8 4 ++ 0#1).signExtend 32

def immU (inst : Word) : Word := inst.extractLsb' 12 20 ++ 0#12

def immJ (inst : Word) : Word :=
  (inst.extractLsb' 31 1 ++ inst.extractLsb' 12 8 ++ inst.extractLsb' 20 1 ++
    inst.extractLsb' 21 10 ++ 0#1).signExtend 32

def idu (inst : Word) : IDU :=
  let rType := opcode inst == 0b0110011
  let iTypeArith := opcode inst == 0b0010011
  let lTypeLoad := opcode inst == 0b0000011
  let sType := opcode inst == 0b0100011
  let bType := opcode inst == 0b1100011
  let jType := opcode inst == 0b1101111
  let iJalr := opcode inst == 0b1100111
  let uLui := opcode inst == 0b0110111
  let system := opcode inst == 0b1110011
  let sSw := sType && funct3 inst == 0b010
  let sSb := sType && funct3 inst == 0b000
  let iType := iTypeArith || lTypeLoad || iJalr
  let uType := uLui
  { rType, iTypeArith, lTypeLoad, sType, uType, iType, bType, jType, iJalr, uLui, sSw, sSb
    rAdd := rType && (funct3 inst == 0b000 && funct7 inst == 0b0000000)
    lLw := lTypeLoad && funct3 inst == 0b010
    lLbu := lTypeLoad && funct3 inst == 0b100
    iAdd := iTypeArith && funct3 inst == 0b000
    iCsrrw := system && funct3 inst == 0b001
    iCsrrs := system && funct3 inst == 0b010
    csrAddr := inst.extractLsb' 20 12
    imm :=
      if iType then immI inst
      else if sType then immS inst
      else if bType then immB inst
      else if uType then immU inst
      else if jType then immJ inst
      else 0
    r1 := Rv32.rs1 inst
    r2 := Rv32.rs2 inst
    rd := Rv32.rd inst
    wmask := if sSw then 0b1111 else if sSb then 0b0001 else 0 }

/-- `csr_wdata` and `ALU_OUT` of `ysyx_25080202_EXU`. -/
structure EXU where
  csrWdata : Word
  aluOut : Word
  deriving DecidableEq, Repr

def exu (d : IDU) (rdata1 rdata2 pc : Word) : EXU :=
  let a :=
    if d.rType || d.iType || d.sType then rdata1
    else if d.bType || d.jType then pc
    else 0
  let b :=
    if d.rType then rdata2
    else if d.sType || d.iType || d.bType || d.uType then d.imm
    else 0
  { csrWdata := if d.iCsrrw || d.iCsrrs then rdata1 else 0
    aluOut :=
      if d.rAdd || d.iAdd || d.iJalr || d.uType || d.sType || d.lLbu || d.lLw then a + b else 0 }

inductive BusState where
  | idle | wait
  deriving DecidableEq, Repr

structure IFU where
  state : BusState
  inst : Word
  valid : Bool
  raddr : Word
  reqValid : Bool
  deriving DecidableEq, Repr

def IFU.next (rst pcValid lsuReady wbuReady respValid : Bool) (pc rdata : Word) (u : IFU) : IFU :=
  if rst then ⟨.idle, 0, false, 0x30000000, false⟩
  else match u.state with
    | .idle =>
      if pcValid then { u with state := .wait, raddr := pc, reqValid := true }
      else if (wbuReady || lsuReady) && u.valid then { u with valid := false }
      else u
    | .wait =>
      let u := { u with reqValid := false }
      if respValid then { u with state := .idle, valid := true, inst := rdata } else u

structure LSU where
  state : BusState
  ready : Bool
  valid : Bool
  reqValid : Bool
  wen : Bool
  addr : Word
  wdata : Word
  wmask : BitVec 4
  size : BitVec 2
  regWriteData : Word
  deriving DecidableEq, Repr

def IDU.wen (d : IDU) : Bool := d.sSb || d.sSw

def IDU.ren (d : IDU) : Bool := d.lLbu || d.lLw

/-- `lsu_working`. -/
def IDU.working (d : IDU) : Bool := d.ren || d.wen

/-- The reset leaves `lsu_addr`, `lsu_wdata` and `lsu_wmask` as they are. -/
def LSU.next (rst ifuValid wbuReady respValid : Bool) (d : IDU) (aluOut r2Data rdata : Word)
    (u : LSU) : LSU :=
  if rst then
    { u with
      state := .idle, ready := false, valid := false, reqValid := false, wen := false
      regWriteData := 0, size := 0 }
  else match u.state with
    | .idle =>
      if ifuValid && (d.wen || d.ren) then
        { u with
          state := .wait, ready := true, wen := d.wen, addr := aluOut
          wmask := d.wmask <<< (aluOut.extractLsb' 0 2).toNat
          wdata := r2Data <<< (8 * (aluOut.extractLsb' 0 2).toNat)
          reqValid := true
          size := if d.sSb || d.lLbu then 0b00 else if d.sSw || d.lLw then 0b10 else 0b00 }
      else if u.valid && wbuReady then { u with valid := false }
      else u
    | .wait =>
      let deviation := rdata >>> (8 * (u.addr.extractLsb' 0 2).toNat)
      let u := { u with ready := false, reqValid := false }
      if respValid then
        { u with
          valid := true, state := .idle, wen := false
          regWriteData :=
            if d.lLw then deviation
            else if d.lLbu then (deviation.extractLsb' 0 8).setWidth 32
            else 0 }
      else u

structure PC where
  valid : Bool
  pc : Word
  deriving DecidableEq, Repr

def PC.next (rst wbuValid : Bool) (nextPc : Word) (u : PC) : PC :=
  if rst then ⟨true, 0x30000000⟩
  else if wbuValid then ⟨true, nextPc⟩
  else if u.valid then { u with valid := false }
  else u

abbrev RegisterFile := BitVec 4 → Word

def RegisterFile.rdata (rf : RegisterFile) (raddr : Reg) : Word :=
  if raddr = 0 then 0 else rf (raddr.extractLsb' 0 4)

def RegisterFile.next (wen : Bool) (waddr : Reg) (wdata : Word) (rf : RegisterFile) :
    RegisterFile :=
  if wen then Function.update rf (waddr.extractLsb' 0 4) wdata else rf

def MVENDORID : Word := 0x79737978
def MARCHID : Word := 0x017EB18A

def csrRdata (d : IDU) (mcycle : BitVec 64) : Word :=
  if d.iCsrrs || d.iCsrrw then
    if d.csrAddr = 0xB00 then mcycle.extractLsb' 0 32
    else if d.csrAddr = 0xB80 then mcycle.extractLsb' 32 32
    else if d.csrAddr = 0xF11 then MVENDORID
    else if d.csrAddr = 0xF12 then MARCHID
    else 0
  else 0

/-- A write replaces one half of `mcycle + 1` by a value computed from `mcycle`. -/
def csrNext (rst : Bool) (d : IDU) (csrWdata : Word) (mcycle : BitVec 64) : BitVec 64 :=
  let lo := mcycle.extractLsb' 0 32
  let hi := mcycle.extractLsb' 32 32
  let inc := mcycle + 1
  if rst then 0
  else if d.iCsrrw then
    if d.csrAddr = 0xB00 then inc.extractLsb' 32 32 ++ csrWdata
    else if d.csrAddr = 0xB80 then csrWdata ++ inc.extractLsb' 0 32
    else inc
  else if d.iCsrrs && csrWdata != 0 then
    if d.csrAddr = 0xB00 then inc.extractLsb' 32 32 ++ (lo ||| csrWdata)
    else if d.csrAddr = 0xB80 then (hi ||| csrWdata) ++ inc.extractLsb' 0 32
    else inc
  else inc

/-- The two-bit state register; `default` sends its fourth value to `idle`. -/
inductive WbuState where
  | idle | wait | lsuwait | unused
  deriving DecidableEq, Repr

structure WBU where
  state : WbuState
  ready : Bool
  valid : Bool
  deriving DecidableEq, Repr

def WBU.next (rst ifuValid lsuBusy lsuValid : Bool) (u : WBU) : WBU :=
  if rst then ⟨.idle, false, false⟩
  else match u.state with
    | .idle =>
      if ifuValid then
        if lsuBusy then { u with state := .lsuwait, valid := false }
        else ⟨.wait, true, true⟩
      else ⟨.idle, false, false⟩
    | .wait => ⟨.idle, false, false⟩
    | .lsuwait => if lsuValid then ⟨.idle, true, true⟩ else u
    | .unused => { u with state := .idle }

def nextPc (d : IDU) (aluOut pc : Word) : Word :=
  if d.iJalr then aluOut.extractLsb' 1 31 ++ 0#1 else pc + 4

def regWdata (d : IDU) (pc csrRdata aluOut loadWdata : Word) (lsuValid : Bool) : Word :=
  if d.iJalr then pc + 4
  else if d.iCsrrw || d.iCsrrs then csrRdata
  else if lsuValid then loadWdata
  else aluOut

structure Core where
  ifu : IFU
  lsu : LSU
  pc : PC
  wbu : WBU
  rf : RegisterFile
  mcycle : BitVec 64

structure Inputs where
  reset : Bool
  ifuRespValid : Bool
  ifuRdata : Word
  lsuRdata : Word
  lsuRespValid : Bool
  deriving DecidableEq, Repr

namespace Core

variable (c : Core)

def idu : IDU := Npc.idu c.ifu.inst
def r1Data : Word := c.rf.rdata c.idu.r1
def r2Data : Word := c.rf.rdata c.idu.r2
def exu : EXU := Npc.exu c.idu c.r1Data c.r2Data c.pc.pc
def csrRdata : Word := Npc.csrRdata c.idu c.mcycle
def nextPc : Word := Npc.nextPc c.idu c.exu.aluOut c.pc.pc
def regWdata : Word :=
  Npc.regWdata c.idu c.pc.pc c.csrRdata c.exu.aluOut c.lsu.regWriteData c.lsu.valid

/-- One rising edge of `clock`. -/
def next (i : Inputs) : Core where
  ifu := c.ifu.next i.reset c.pc.valid c.lsu.ready c.wbu.ready i.ifuRespValid c.pc.pc i.ifuRdata
  lsu := c.lsu.next i.reset c.ifu.valid c.wbu.ready i.lsuRespValid c.idu c.exu.aluOut c.r2Data
    i.lsuRdata
  pc := c.pc.next i.reset c.wbu.valid c.nextPc
  wbu := c.wbu.next i.reset c.ifu.valid c.idu.working c.lsu.valid
  rf := c.rf.next (c.wbu.valid && !(c.idu.sSb || c.idu.sSw)) c.idu.rd c.regWdata
  mcycle := csrNext i.reset c.idu c.exu.csrWdata c.mcycle

end Core

end Ysyx.Npc
