import Ysyx.Npc.Bus
import Ysyx.Lib.Rv32Fields

/-! One instruction of the core against the RV32I specification: what the
decoder and the ALU make of its encoding, what the LSU requests and keeps for
it, and the architectural state that its retiring edge leaves. -/

namespace Ysyx.Npc

open Bytes Rv32

/-- The architectural state that the core and its memory hold. -/
def Core.arch (c : Core) (mem : Word → Byte) : State := ⟨fun r => c.rf.rdata r, c.pc.pc, mem⟩

/-- The instructions in question, on the sixteen registers the core has. -/
def Implemented : Instr → Prop
  | .op .add rd rs1 rs2 => rd.toNat < 16 ∧ rs1.toNat < 16 ∧ rs2.toNat < 16
  | .opImm .addi rd rs1 _ => rd.toNat < 16 ∧ rs1.toNat < 16
  | .lui rd _ => rd.toNat < 16
  | .jalr rd rs1 _ => rd.toNat < 16 ∧ rs1.toNat < 16
  | .load .lw rd rs1 _ | .load .lbu rd rs1 _ => rd.toNat < 16 ∧ rs1.toNat < 16
  | .store .sw rs1 rs2 _ | .store .sb rs1 rs2 _ => rs1.toNat < 16 ∧ rs2.toNat < 16
  | _ => False

/-- Word accesses and jump targets are word-aligned. -/
def AlignedOk (s : State) : Instr → Prop
  | .load .lw _ rs1 imm => lane (s.read rs1 + imm.signExtend 32) = 0
  | .store .sw rs1 _ imm => lane (s.read rs1 + imm.signExtend 32) = 0
  | .jalr rd rs1 imm => lane ((Instr.jalr rd rs1 imm).exec s).pc = 0
  | _ => True

/-- Two architectural states that agree on what the core has. -/
structure Same (s s' : State) : Prop where
  pc : s.pc = s'.pc
  regs : ∀ r : Reg, r.toNat < 16 → s.read r = s'.read r
  mem : s.mem = s'.mem

section WriteBack

variable {c : Core} {mem : Word → Byte}

theorem read_arch (mem : Word → Byte) (r : Reg) : (c.arch mem).read r = c.rf.rdata r := by
  simp only [State.read, Core.arch, RegisterFile.rdata]
  split_ifs <;> rfl

theorem low_inj {r q : Reg} (hr : r.toNat < 16) (hq : q.toNat < 16)
    (h : r.extractLsb' 0 4 = q.extractLsb' 0 4) : r = q := by
  apply BitVec.eq_of_toNat_eq
  have := congrArg BitVec.toNat h
  simp only [BitVec.extractLsb'_toNat, Nat.shiftRight_zero] at this
  omega

theorem rdata_next {rd r : Reg} (hrd : rd.toNat < 16) (hr : r.toNat < 16) (v : Word) :
    (c.rf.next true rd v).rdata r = ((c.arch mem).write rd v).read r := by
  simp only [RegisterFile.next, RegisterFile.rdata, State.read, State.write, Core.arch, if_true]
  by_cases h0 : r = 0
  · rw [if_pos h0, if_pos h0]
  rw [if_neg h0, if_neg h0, if_neg h0]
  by_cases hq : r = rd
  · rw [hq, Function.update_self, if_pos rfl]
  · rw [Function.update_of_ne fun h => hq (low_inj hr hrd h), if_neg hq, if_neg h0]

theorem writeBack_assign {s : State} {mem' : Word → Byte} (rd : Reg) (v pc' : Word)
    (hwen : c.idu.wen = false) (hrd : c.idu.rd = rd) (hlt : rd.toNat < 16)
    (hv : c.regWdata = v) (hpc : c.nextPc = pc')
    (hs : s = { (c.arch mem).write rd v with pc := pc' }) (hmem : mem' = mem) :
    Same (c.writeBack.arch mem') s := by
  subst hs hmem
  refine ⟨hpc, fun r hr => ?_, rfl⟩
  rw [read_arch]
  simp only [Core.writeBack, hwen, hrd, hv, Bool.not_false]
  exact rdata_next hlt hr v

theorem clear_bit0 (a : Word) : a.extractLsb' 1 31 ++ 0#1 = a &&& ~~~1 := by
  apply BitVec.eq_of_getLsbD_eq
  intro k hk
  simp only [BitVec.getLsbD_append, BitVec.getLsbD_extractLsb', BitVec.getLsbD_and,
    BitVec.getLsbD_not]
  interval_cases k <;> simp

attribute [local simp] Instr.encode ROp.funct7 ROp.funct3 IOp.funct3 LOp.funct3 SOp.funct3 in
theorem working_encode {i : Instr} (h : Implemented i) (s : State) :
    (idu i.encode).working = (i.access s).isSome := by
  unfold Implemented at h
  split at h <;> simp_all [idu, IDU.working, IDU.ren, IDU.wen, Instr.access]

section Fields

attribute [local simp] Instr.encode ROp.funct7 ROp.funct3 IOp.funct3 LOp.funct3 SOp.funct3 idu
  IDU.wen regWdata nextPc exu

theorem retire_add {rd rs1 rs2 : Reg} (hi : c.ifu.inst = (Instr.op .add rd rs1 rs2).encode)
    (hlt : rd.toNat < 16) (hvalid : c.lsu.valid = false) :
    Same (c.writeBack.arch mem) ((Instr.op .add rd rs1 rs2).exec (c.arch mem)) := by
  have hd : c.idu = idu (Instr.op .add rd rs1 rs2).encode := by rw [Core.idu, hi]
  refine writeBack_assign rd (c.rf.rdata rs1 + c.rf.rdata rs2) (c.pc.pc + 4)
    (by simp [hd]) (by simp [hd]) hlt ?_ (by simp [Core.nextPc, hd]) ?_ rfl
  · simp [Core.regWdata, Core.exu, Core.r1Data, Core.r2Data, hd, hvalid]
  · simp only [Instr.exec, read_arch]
    rfl

theorem retire_addi {rd rs1 : Reg} {imm : BitVec 12}
    (hi : c.ifu.inst = (Instr.opImm .addi rd rs1 imm).encode) (hlt : rd.toNat < 16)
    (hvalid : c.lsu.valid = false) :
    Same (c.writeBack.arch mem) ((Instr.opImm .addi rd rs1 imm).exec (c.arch mem)) := by
  have hd : c.idu = idu (Instr.opImm .addi rd rs1 imm).encode := by rw [Core.idu, hi]
  refine writeBack_assign rd (c.rf.rdata rs1 + imm.signExtend 32) (c.pc.pc + 4)
    (by simp [hd]) (by simp [hd]) hlt ?_ (by simp [Core.nextPc, hd]) ?_ rfl
  · simp [Core.regWdata, Core.exu, Core.r1Data, hd, hvalid, immI, extract_immI]
  · simp only [Instr.exec, read_arch]
    rfl

theorem retire_lui {rd : Reg} {imm : BitVec 20} (hi : c.ifu.inst = (Instr.lui rd imm).encode)
    (hlt : rd.toNat < 16) (hvalid : c.lsu.valid = false) :
    Same (c.writeBack.arch mem) ((Instr.lui rd imm).exec (c.arch mem)) := by
  have hd : c.idu = idu (Instr.lui rd imm).encode := by rw [Core.idu, hi]
  refine writeBack_assign rd (imm ++ 0#12) (c.pc.pc + 4)
    (by simp [hd]) (by simp [hd]) hlt ?_ (by simp [Core.nextPc, hd]) rfl rfl
  simp [Core.regWdata, Core.exu, hd, hvalid, immU, extract_immU]

theorem retire_jalr {rd rs1 : Reg} {imm : BitVec 12}
    (hi : c.ifu.inst = (Instr.jalr rd rs1 imm).encode) (hlt : rd.toNat < 16) :
    Same (c.writeBack.arch mem) ((Instr.jalr rd rs1 imm).exec (c.arch mem)) := by
  have hd : c.idu = idu (Instr.jalr rd rs1 imm).encode := by rw [Core.idu, hi]
  refine writeBack_assign rd (c.pc.pc + 4) ((c.rf.rdata rs1 + imm.signExtend 32) &&& ~~~1)
    (by simp [hd]) (by simp [hd]) hlt (by simp [Core.regWdata, hd]) ?_ ?_ rfl
  · rw [← clear_bit0]
    simp [Core.nextPc, Core.exu, Core.r1Data, hd, immI, extract_immI]
  · simp only [Instr.exec, read_arch]
    rfl

theorem retire_load {o : LOp} {rd rs1 : Reg} {imm : BitVec 12}
    (hi : c.ifu.inst = (Instr.load o rd rs1 imm).encode) (hlt : rd.toNat < 16)
    (hvalid : c.lsu.valid = true)
    (hdata : c.lsu.regWriteData =
      o.extend (loadLE mem (c.rf.rdata rs1 + imm.signExtend 32) o.size)) :
    Same (c.writeBack.arch mem) ((Instr.load o rd rs1 imm).exec (c.arch mem)) := by
  have hd : c.idu = idu (Instr.load o rd rs1 imm).encode := by rw [Core.idu, hi]
  refine writeBack_assign rd c.lsu.regWriteData (c.pc.pc + 4)
    (by simp [hd]) (by simp [hd]) hlt (by simp [Core.regWdata, hd, hvalid])
    (by simp [Core.nextPc, hd]) ?_ rfl
  rw [hdata]
  simp only [Instr.exec, read_arch]
  rfl

theorem retire_store {o : SOp} {rs1 rs2 : Reg} {imm : BitVec 12} {mem' : Word → Byte}
    (ho : o = .sb ∨ o = .sw) (hi : c.ifu.inst = (Instr.store o rs1 rs2 imm).encode)
    (hmem : mem' = storeLE mem (c.rf.rdata rs1 + imm.signExtend 32) o.size (c.rf.rdata rs2)) :
    Same (c.writeBack.arch mem') ((Instr.store o rs1 rs2 imm).exec (c.arch mem)) := by
  have hd : c.idu = idu (Instr.store o rs1 rs2 imm).encode := by rw [Core.idu, hi]
  have hwen : c.idu.wen = true := by rcases ho with rfl | rfl <;> simp [hd]
  have hrf : c.writeBack.rf = c.rf := by
    simp only [Core.writeBack, hwen]
    rfl
  refine ⟨?_, fun r _ => ?_, ?_⟩
  · simp [Core.arch, Core.writeBack, Core.nextPc, hd, Instr.exec, State.next]
  · rw [read_arch, hrf]
    exact (read_arch mem r).symm
  · simp only [Instr.exec, read_arch]
    exact hmem

/-- The request a core in `dispatch` is about to show. -/
def Core.request (c : Core) : AccessReq where
  addr := c.exu.aluOut
  wen := c.idu.wen
  wdata := c.r2Data <<< (8 * lane c.exu.aluOut)
  wmask := c.idu.wmask <<< lane c.exu.aluOut

theorem aluOut_load {o : LOp} {rd rs1 : Reg} {imm : BitVec 12} (ho : o = .lw ∨ o = .lbu)
    (hi : c.ifu.inst = (Instr.load o rd rs1 imm).encode) :
    c.exu.aluOut = c.rf.rdata rs1 + imm.signExtend 32 := by
  have hd : c.idu = idu (Instr.load o rd rs1 imm).encode := by rw [Core.idu, hi]
  rcases ho with rfl | rfl <;> simp [Core.exu, Core.r1Data, hd, immI, extract_immI]

theorem aluOut_store {o : SOp} {rs1 rs2 : Reg} {imm : BitVec 12}
    (hi : c.ifu.inst = (Instr.store o rs1 rs2 imm).encode) :
    c.exu.aluOut = c.rf.rdata rs1 + imm.signExtend 32 := by
  have hd : c.idu = idu (Instr.store o rs1 rs2 imm).encode := by rw [Core.idu, hi]
  have himm : imm.extractLsb' 5 7 ++ imm.extractLsb' 0 5 = imm := by
    apply BitVec.eq_of_getLsbD_eq
    intro k hk
    simp only [BitVec.getLsbD_append, BitVec.getLsbD_extractLsb']
    grind
  simp [Core.exu, Core.r1Data, hd, immS, extract_immS, himm]

/-- What a load leaves in `RegWriteData` when the memory answers it. -/
def Core.loadData (c : Core) (rdata : Word) : Word :=
  let deviation := rdata >>> (8 * (c.lsu.addr.extractLsb' 0 2).toNat)
  if c.idu.lLw then deviation
  else if c.idu.lLbu then (deviation.extractLsb' 0 8).setWidth 32
  else 0

theorem loadData_lw {rd rs1 : Reg} {imm : BitVec 12}
    (hi : c.ifu.inst = (Instr.load .lw rd rs1 imm).encode) (hlane : lane c.lsu.addr = 0) :
    c.loadData (alignedWord mem c.lsu.addr) = loadLE mem c.lsu.addr 4 := by
  have hd : c.idu = idu (Instr.load .lw rd rs1 imm).encode := by rw [Core.idu, hi]
  have hl : (c.lsu.addr.extractLsb' 0 2).toNat = 0 := hlane
  simp [Core.loadData, hd, hl, alignedWord_eq mem hlane]

theorem loadData_lbu {rd rs1 : Reg} {imm : BitVec 12}
    (hi : c.ifu.inst = (Instr.load .lbu rd rs1 imm).encode) :
    c.loadData (alignedWord mem c.lsu.addr) = loadLE mem c.lsu.addr 1 := by
  have hd : c.idu = idu (Instr.load .lbu rd rs1 imm).encode := by rw [Core.idu, hi]
  have hlw : c.idu.lLw = false := by simp [hd]
  have hlbu : c.idu.lLbu = true := by simp [hd]
  rw [← deviation_byte]
  simp only [Core.loadData, hlw, hlbu]
  rfl

theorem request_store {o : SOp} {rs1 rs2 : Reg} {imm : BitVec 12} (ho : o = .sb ∨ o = .sw)
    (hi : c.ifu.inst = (Instr.store o rs1 rs2 imm).encode)
    (hal : AlignedOk (c.arch mem) (.store o rs1 rs2 imm)) :
    c.request.wen = true ∧ storeMasked mem c.request.addr c.request.wmask c.request.wdata =
      storeLE mem (c.rf.rdata rs1 + imm.signExtend 32) o.size (c.rf.rdata rs2) := by
  have hd : c.idu = idu (Instr.store o rs1 rs2 imm).encode := by rw [Core.idu, hi]
  have hr2 : c.r2Data = c.rf.rdata rs2 := by simp [Core.r2Data, hd]
  have haddr := aluOut_store hi
  rcases ho with rfl | rfl
  · have hmask : c.idu.wmask = 1 := by simp [hd]
    refine ⟨by simp [Core.request, hd], ?_⟩
    simp only [Core.request, hmask, hr2, haddr]
    exact storeMasked_byte _ _ _
  · have hmask : c.idu.wmask = 0b1111 := by simp [hd]
    have hlane : lane (c.rf.rdata rs1 + imm.signExtend 32) = 0 := by
      simpa only [AlignedOk, read_arch] using hal
    refine ⟨by simp [Core.request, hd], ?_⟩
    simp only [Core.request, hmask, hr2, haddr]
    exact storeMasked_word _ _ hlane

/-- The retirement of an access: `c` requests it, `c₁` waits for its answer and
`c₂` retires it. -/
theorem retire_answered {i : Instr} {c₁ c₂ : Core} (hi : Implemented i)
    (hsome : (i.access (c.arch mem)).isSome = true) (hal : AlignedOk (c.arch mem) i)
    (h₀ : c.ifu.inst = i.encode) (h₁ : c₁.ifu.inst = i.encode) (h₂ : c₂.ifu.inst = i.encode)
    (haddr : c₁.lsu.addr = c.exu.aluOut) (hrf : c₂.rf = c.rf) (hpc : c₂.pc.pc = c.pc.pc)
    (hvalid : c₂.lsu.valid = true)
    (hload : c₂.lsu.regWriteData = c₁.loadData (alignedWord mem c₁.lsu.addr)) :
    Same (c₂.writeBack.arch (c.request.apply mem)) (i.exec (c.arch mem)) := by
  have hsame : c₂.arch mem = c.arch mem := by rw [Core.arch, Core.arch, hrf, hpc]
  have hd : c.idu = idu i.encode := by rw [Core.idu, h₀]
  rw [← hsame]
  unfold Implemented at hi
  split at hi
  case h_5 rd rs1 imm =>
    have hread : c.request.apply mem = mem := by simp [AccessReq.apply, Core.request, hd]
    have ha := aluOut_load (.inl rfl) h₀
    have hlane : lane (c.rf.rdata rs1 + imm.signExtend 32) = 0 := by
      simpa only [AlignedOk, read_arch] using hal
    rw [hread]
    refine retire_load h₂ hi.1 hvalid ?_
    rw [hload, loadData_lw h₁ (by rw [haddr, ha, hlane]), haddr, ha, hrf]
    rfl
  case h_6 rd rs1 imm =>
    have hread : c.request.apply mem = mem := by simp [AccessReq.apply, Core.request, hd]
    have ha := aluOut_load (.inr rfl) h₀
    rw [hread]
    refine retire_load h₂ hi.1 hvalid ?_
    rw [hload, loadData_lbu h₁, haddr, ha, hrf]
    rfl
  case h_7 rs1 rs2 imm =>
    obtain ⟨hwen, hmem⟩ := request_store (.inr rfl) h₀ hal
    refine retire_store (.inr rfl) h₂ ?_
    rw [AccessReq.apply, if_pos hwen, hmem, hrf]
  case h_8 rs1 rs2 imm =>
    obtain ⟨hwen, hmem⟩ := request_store (.inl rfl) h₀ hal
    refine retire_store (.inl rfl) h₂ ?_
    rw [AccessReq.apply, if_pos hwen, hmem, hrf]
  all_goals first | exact hi.elim | cases hsome

end Fields

end WriteBack

end Ysyx.Npc
