import Ysyx.Nemu.Agree64
import Ysyx.Nemu.Decode64
import Ysyx.Nemu.InstCorrect
import Ysyx.Nemu.Memory64

/-! One call of the riscv64 `isa_exec_once` against RV64IM. -/

namespace Ysyx.Nemu.Riscv64

open Bytes Halves Rv32

def Machine.arch (m : Machine) (pc : DWord) : Rv64.State := ⟨m.cpu.gpr, pc, view m.mem⟩

/-- One call is the step of the specification, and nothing else of the machine changes. -/
def MeetsSpec (cfg : Config) (s : Decode) (m : Machine) (i : Rv64.Instr) : Prop :=
  ∃ s' m', isaExecOnce cfg s m = .ok (s', m') ∧
    Rv64.Step (InMem64 cfg) i (m.arch s.pc) (m'.arch s'.dnpc) ∧
    m' = { m with cpu := { m.cpu with gpr := m'.cpu.gpr }, mem := m'.mem }

/-- A result that is thrown away need not agree, nor a comparison whose target is the next
instruction. -/
def Agrees (s : Rv64.State) : Rv64.Instr → Prop
  | .op o rd rs1 rs2 => rd = 0 ∨ OpAgree o (s.read rs1) (s.read rs2)
  | .mop o rd rs1 rs2 => LowDefined o (s.read rs1) (s.read rs2) ∧
      (rd = 0 ∨ MopAgree o (s.read rs1) (s.read rs2))
  | .opImm o rd rs1 imm => rd = 0 ∨ ImmAgree o (s.read rs1) (imm.signExtend 64)
  | .shiftImm o rd rs1 shamt => rd = 0 ∨ ShiftAgree o (s.read rs1) shamt
  | .branch o rs1 rs2 imm => Rv64.offset imm = 4 ∨ BranchAgree o (s.read rs1) (s.read rs2)
  | _ => True

def operandsOf (m : Machine) (w : Word) : OperandType → Operands
  | .R => ⟨rd w, m.cpu.gpr (rs1 w), m.cpu.gpr (rs2 w), 0⟩
  | .I => ⟨rd w, m.cpu.gpr (rs1 w), 0, (Rv64.immI w).signExtend 64⟩
  | .S => ⟨rd w, m.cpu.gpr (rs1 w), m.cpu.gpr (rs2 w), (Rv64.immS w).signExtend 64⟩
  | .B => ⟨rd w, m.cpu.gpr (rs1 w), m.cpu.gpr (rs2 w), Rv64.offset (Rv64.immB w)⟩
  | .U => ⟨rd w, 0, 0, (Rv64.immU w ++ 0#12).signExtend 64⟩
  | .J => ⟨rd w, 0, 0, Rv64.offset (Rv64.immJ w)⟩
  | .N => ⟨rd w, 0, 0, 0⟩

def fetched (s : Decode) (w : Word) : Decode :=
  { s with inst := w, snpc := s.snpc + 4, dnpc := s.snpc + 4 }

/-- The value that the body of a load entry assigns. -/
def loadBody (cfg : Config) (mem : Mem) (a : DWord) (len : ℕ) (ext : DWord → DWord) :
    Except Fault DWord := do
  return ext (← vaddrRead cfg mem a len)

def storeBody (cfg : Config) (m : Machine) (a : DWord) (len : ℕ) (d dnpc : DWord) :
    Except Fault (Machine × DWord) := do
  return ({ m with mem := ← vaddrWrite cfg m.mem a len d }, dnpc)

section Steps

variable {cfg : Config} {s : Decode} {m : Machine} {w : Word}

theorem gpr_ok (hrve : cfg.RVE = false) (r : Reg) : gpr cfg m r = .ok (m.cpu.gpr r) := by
  rw [gpr, checkRegIdx_ok hrve]
  rfl

theorem setGpr_ok (hrve : cfg.RVE = false) (r : Reg) (v : DWord) :
    setGpr cfg m r v = .ok (m.setGpr r v) := by
  rw [setGpr, checkRegIdx_ok hrve]
  rfl

theorem decodeOperand_ok (hrve : cfg.RVE = false) (t : OperandType) :
    decodeOperand cfg m w t = .ok (operandsOf m w t) := by
  simp only [decodeOperand, BITS_reg _ (show 19 - 15 + 1 = 5 by decide),
    BITS_reg _ (show 24 - 20 + 1 = 5 by decide), BITS_reg _ (show 11 - 7 + 1 = 5 by decide),
    gpr_ok hrve, immI_eq, immS_eq, immB_eq, immU_eq, immJ_eq]
  cases t <;> rfl

theorem isaExecOnce_selected (hrve : cfg.RVE = false)
    (hfetch : vaddrIfetch cfg m.mem s.snpc 4 = .ok (w.setWidth 64)) {p : Instpat}
    (hsel : selected w = some p) :
    isaExecOnce cfg s m =
      (execBody cfg m (fetched s w) (operandsOf m w p.name.type) p.name).map fun r =>
        ({ fetched s w with dnpc := r.2 }, r.1.setGpr 0 0) := by
  have hw : (w.setWidth 64).setWidth 32 = w := by
    rw [BitVec.setWidth_setWidth_of_le _ (by decide), BitVec.setWidth_eq]
  have htype := (selected_spec hsel).2
  simp only [isaExecOnce, hfetch, decodeExec, bind, Except.bind, hw, hsel, htype,
    decodeOperand_ok hrve, setGpr_ok hrve, fetched]
  cases execBody cfg m { s with inst := w, snpc := s.snpc + 4, dnpc := s.snpc + 4 }
    (operandsOf m w p.name.type) p.name <;> rfl

theorem setGpr_zero (r : Reg) (v : DWord) (pc : DWord) :
    ((m.setGpr r v).setGpr 0 0).arch pc = { (m.arch pc).write r v with pc := pc } := by
  ext q
  · simp only [Machine.arch, Machine.setGpr, Rv64.State.write, Function.update_apply]
  all_goals rfl

theorem setGpr_zero_self (h0 : m.cpu.gpr 0 = 0) : m.setGpr 0 0 = m := by
  have : Function.update m.cpu.gpr 0 0 = m.cpu.gpr := by
    rw [← h0, Function.update_eq_self]
  simp only [Machine.setGpr, this]

theorem read_eq (h0 : m.cpu.gpr 0 = 0) (r : Reg) (pc : DWord) :
    (m.arch pc).read r = m.cpu.gpr r := by
  simp only [Rv64.State.read, Machine.arch]
  split_ifs with h
  · rw [h, h0]
  · rfl

theorem write_eq_iff (t : Rv64.State) {r : Reg} {v v' : DWord} :
    t.write r v' = t.write r v ↔ r = 0 ∨ v' = v := by
  constructor
  · intro h
    by_cases hr : r = 0
    · exact .inl hr
    · have hx := congrFun (congrArg Rv64.State.x h) r
      simp only [Rv64.State.write, if_neg hr, if_true] at hx
      exact .inr hx
  · rintro (rfl | rfl)
    · refine Rv64.State.ext (funext fun q => ?_) rfl rfl
      simp only [Rv64.State.write]
      split_ifs <;> rfl
    · rfl

variable (hrve : cfg.RVE = false) (hpc : s.snpc = s.pc) (h0 : m.cpu.gpr 0 = 0)
  (hfetch : vaddrIfetch cfg m.mem s.snpc 4 = .ok (w.setWidth 64)) {p : Instpat}
  (hsel : selected w = some p) {i : Rv64.Instr}

include hrve hfetch hsel

/-- A body that assigns `rd` meets a specification that writes `rd`, if it gets to a value and that
is the one specified. -/
theorem meetsSpec_assign_iff {r : Reg} {e : Except Fault DWord} {v d : DWord}
    (hbody : execBody cfg m (fetched s w) (operandsOf m w p.name.type) p.name =
      (do return (← setGpr cfg m r (← e), d)))
    (hspec : i.exec (m.arch s.pc) = { (m.arch s.pc).write r v with pc := d })
    (hacc : Rv64.Accessible (InMem64 cfg) i (m.arch s.pc)) :
    MeetsSpec cfg s m i ↔ ∃ v', e = .ok v' ∧ (r = 0 ∨ v' = v) := by
  have hexec := isaExecOnce_selected hrve hfetch hsel
  rw [hbody] at hexec
  have hstate (v' : DWord) : ((m.setGpr r v').setGpr 0 0).arch d = i.exec (m.arch s.pc) ↔
      r = 0 ∨ v' = v := by
    rw [setGpr_zero, hspec, ← write_eq_iff (m.arch s.pc)]
    constructor
    · intro h
      have hx := congrArg Rv64.State.x h
      exact Rv64.State.ext hx rfl rfl
    · intro h
      have hx := congrArg Rv64.State.x h
      exact Rv64.State.ext hx rfl rfl
  constructor
  · rintro ⟨s', m', hrun, ⟨-, harch⟩, -⟩
    rw [hexec] at hrun
    cases e with
    | error f => cases hrun
    | ok v' =>
      have hset := setGpr_ok (m := m) hrve r v'
      simp only [bind, Except.bind, hset, pure, Except.pure, Except.map] at hrun
      cases hrun
      exact ⟨v', rfl, (hstate v').1 harch⟩
  · rintro ⟨v', rfl, hv⟩
    have hset := setGpr_ok (m := m) hrve r v'
    simp only [bind, Except.bind, hset, pure, Except.pure, Except.map] at hexec
    exact ⟨_, _, hexec, ⟨hacc, (hstate v').2 hv⟩, rfl⟩

theorem meetsSpec_assign_ok {r : Reg} {e : Except Fault DWord} {v d : DWord} {q : Prop}
    (hbody : execBody cfg m (fetched s w) (operandsOf m w p.name.type) p.name =
      (do return (← setGpr cfg m r (← e), d)))
    (hspec : i.exec (m.arch s.pc) = { (m.arch s.pc).write r v with pc := d })
    (hacc : Rv64.Accessible (InMem64 cfg) i (m.arch s.pc))
    (hval : ∃ v', e = .ok v' ∧ (v' = v ↔ q)) : MeetsSpec cfg s m i ↔ r = 0 ∨ q := by
  obtain ⟨v', hv', hq⟩ := hval
  rw [meetsSpec_assign_iff hrve hfetch hsel hbody hspec hacc, ← hq]
  constructor
  · rintro ⟨u, hu, h⟩
    rw [hv'] at hu
    cases hu
    exact h
  · exact fun h => ⟨v', hv', h⟩

theorem meetsSpec_assign {r : Reg} {v d : DWord}
    (hbody : execBody cfg m (fetched s w) (operandsOf m w p.name.type) p.name =
      (do return (← setGpr cfg m r (← .ok v), d)))
    (hspec : i.exec (m.arch s.pc) = { (m.arch s.pc).write r v with pc := d })
    (hacc : Rv64.Accessible (InMem64 cfg) i (m.arch s.pc)) : MeetsSpec cfg s m i :=
  (meetsSpec_assign_iff hrve hfetch hsel hbody hspec hacc).2 ⟨v, rfl, .inr rfl⟩

include hpc h0

theorem meetsSpec_op (o : ROp) (hbody : execBody cfg m (fetched s w)
      (operandsOf m w p.name.type) p.name =
      (do return (← setGpr cfg m (rd w) (← opBody o (m.cpu.gpr (rs1 w)) (m.cpu.gpr (rs2 w))),
        s.snpc + 4))) :
    MeetsSpec cfg s m (.op o (rd w) (rs1 w) (rs2 w)) ↔
      Agrees (m.arch s.pc) (.op o (rd w) (rs1 w) (rs2 w)) := by
  rw [Agrees, read_eq h0, read_eq h0]
  refine meetsSpec_assign_ok hrve hfetch hsel hbody ?_ (fun _ _ h => nomatch h) (opBody_ok o _ _)
  simp only [Rv64.Instr.exec, Rv64.State.next, read_eq h0, hpc]
  rfl

theorem meetsSpec_opImm (o : IOp) (hbody : execBody cfg m (fetched s w)
      (operandsOf m w p.name.type) p.name =
      (do return (← setGpr cfg m (rd w)
        (← .ok (iopBody o (m.cpu.gpr (rs1 w)) ((Rv64.immI w).signExtend 64))), s.snpc + 4))) :
    MeetsSpec cfg s m (.opImm o (rd w) (rs1 w) (Rv64.immI w)) ↔
      Agrees (m.arch s.pc) (.opImm o (rd w) (rs1 w) (Rv64.immI w)) := by
  rw [Agrees, read_eq h0]
  refine meetsSpec_assign_ok hrve hfetch hsel hbody ?_ (fun _ _ h => nomatch h)
    ⟨_, rfl, iopBody_iff o _ _⟩
  simp only [Rv64.Instr.exec, Rv64.State.next, read_eq h0, hpc]
  rfl

theorem meetsSpec_mop {o : MOp} (hin : o ≠ .mulhsu ∧ o ≠ .mulhu)
    (hdef : (Rv64.Instr.mop o (rd w) (rs1 w) (rs2 w)).DivDefined (m.arch s.pc))
    (hbody : execBody cfg m (fetched s w) (operandsOf m w p.name.type) p.name =
      (do return (← setGpr cfg m (rd w) (← mopBody o (m.cpu.gpr (rs1 w)) (m.cpu.gpr (rs2 w))),
        s.snpc + 4))) :
    MeetsSpec cfg s m (.mop o (rd w) (rs1 w) (rs2 w)) ↔
      Agrees (m.arch s.pc) (.mop o (rd w) (rs1 w) (rs2 w)) := by
  have hspec : (Rv64.Instr.mop o (rd w) (rs1 w) (rs2 w)).exec (m.arch s.pc) =
      { (m.arch s.pc).write (rd w)
          (Rv64.mopEval o (m.cpu.gpr (rs1 w)) (m.cpu.gpr (rs2 w))) with pc := s.snpc + 4 } := by
    simp only [Rv64.Instr.exec, Rv64.State.next, read_eq h0, hpc]
    rfl
  rw [Rv64.Instr.DivDefined, read_eq h0, read_eq h0] at hdef
  rw [Agrees, read_eq h0, read_eq h0]
  by_cases hlow : LowDefined o (m.cpu.gpr (rs1 w)) (m.cpu.gpr (rs2 w))
  · rw [and_iff_right hlow]
    exact meetsSpec_assign_ok hrve hfetch hsel hbody hspec (fun _ _ h => nomatch h)
      (mopBody_ok hin hdef hlow)
  · refine iff_of_false (fun h => ?_) fun h => hlow h.1
    obtain ⟨v, hv, -⟩ :=
      (meetsSpec_assign_iff hrve hfetch hsel hbody hspec fun _ _ h => nomatch h).1 h
    exact hlow (lowDefined_of_mopBody hv)

theorem meetsSpec_shiftImm {o : ShOp} (hbit : (funct7 w).getLsbD 0 = false)
    (hn : if o = .srai then ((Rv64.immI w).signExtend 64).toNat % 32 = (rs2 w).toNat
      else ((Rv64.immI w).signExtend 64).toNat = (rs2 w).toNat)
    (hbody : execBody cfg m (fetched s w) (operandsOf m w p.name.type) p.name =
      (do return (← setGpr cfg m (rd w)
        (← shBody o (m.cpu.gpr (rs1 w)) ((Rv64.immI w).signExtend 64)), s.snpc + 4))) :
    MeetsSpec cfg s m (.shiftImm o (rd w) (rs1 w) (Rv64.shamt w)) ↔
      Agrees (m.arch s.pc) (.shiftImm o (rd w) (rs1 w) (Rv64.shamt w)) := by
  have hshamt := shamt_toNat hbit
  rw [← hshamt] at hn
  rw [Agrees, read_eq h0]
  refine meetsSpec_assign_ok hrve hfetch hsel hbody ?_ (fun _ _ h => nomatch h)
    (shBody_ok o _ (by have := (rs2 w).isLt; omega) hn)
  simp only [Rv64.Instr.exec, Rv64.State.next, read_eq h0, hpc]
  rfl

omit h0 in
theorem meetsSpec_jal (hbody : execBody cfg m (fetched s w) (operandsOf m w p.name.type) p.name =
      (do return (← setGpr cfg m (rd w) (← .ok (s.pc + 4)),
        s.snpc + 4 + (Rv64.offset (Rv64.immJ w) - 4)))) :
    MeetsSpec cfg s m (.jal (rd w) (Rv64.immJ w)) := by
  refine meetsSpec_assign hrve hfetch hsel hbody ?_ fun _ _ h => nomatch h
  have htarget : s.snpc + 4 + (Rv64.offset (Rv64.immJ w) - 4) =
      s.pc + Rv64.offset (Rv64.immJ w) := by
    rw [hpc]
    ring
  rw [htarget]
  rfl

/-- A comparison that differs is seen only if the target is not the next instruction. -/
theorem meetsSpec_branch (o : BOp)
    (hbody : execBody cfg m (fetched s w) (operandsOf m w p.name.type) p.name =
      .ok (m, s.snpc + 4 + if branchTest o (m.cpu.gpr (rs1 w)) (m.cpu.gpr (rs2 w)) then
        Rv64.offset (Rv64.immB w) - 4 else 0)) :
    MeetsSpec cfg s m (.branch o (rs1 w) (rs2 w) (Rv64.immB w)) ↔
      Agrees (m.arch s.pc) (.branch o (rs1 w) (rs2 w) (Rv64.immB w)) := by
  have hexec := isaExecOnce_selected hrve hfetch hsel
  rw [hbody] at hexec
  simp only [Except.map, setGpr_zero_self h0] at hexec
  have hspec : (Rv64.Instr.branch o (rs1 w) (rs2 w) (Rv64.immB w)).exec (m.arch s.pc) =
      m.arch (if Rv64.taken o (m.cpu.gpr (rs1 w)) (m.cpu.gpr (rs2 w)) then
        s.pc + Rv64.offset (Rv64.immB w) else s.pc + 4) := by
    simp only [Rv64.Instr.exec, read_eq h0, Rv64.State.next]
    split_ifs <;> rfl
  have htaken : s.snpc + 4 + (Rv64.offset (Rv64.immB w) - 4) =
      s.pc + Rv64.offset (Rv64.immB w) := by
    rw [hpc]
    ring
  have hnext : s.snpc + 4 + 0 = s.pc + 4 := by rw [hpc, add_zero]
  have hpcs (x y : DWord) : m.arch x = m.arch y ↔ x = y :=
    ⟨fun h => congrArg Rv64.State.pc h, fun h => h ▸ rfl⟩
  have htarget (t t' : Bool) : (s.snpc + 4 + if t then Rv64.offset (Rv64.immB w) - 4 else 0) =
      (if t' then s.pc + Rv64.offset (Rv64.immB w) else s.pc + 4) ↔
      Rv64.offset (Rv64.immB w) = 4 ∨ t = t' := by
    cases t <;> cases t'
    case false.false => exact iff_of_true hnext (.inr rfl)
    case true.true => exact iff_of_true htaken (.inr rfl)
    case false.true =>
      refine (Eq.congr_left hnext).trans ⟨fun h => .inl (add_left_cancel h).symm, ?_⟩
      rintro (h | h)
      · exact congrArg (s.pc + ·) h.symm
      · cases h
    case true.false =>
      refine (Eq.congr_left htaken).trans ⟨fun h => .inl (add_left_cancel h), ?_⟩
      rintro (h | h)
      · exact congrArg (s.pc + ·) h
      · cases h
  rw [Agrees, read_eq h0, read_eq h0, ← branchTest_iff, ← htarget, ← hpcs, ← hspec]
  constructor
  · rintro ⟨s', m', hrun, ⟨-, harch⟩, -⟩
    rw [hexec] at hrun
    cases hrun
    exact harch
  · intro harch
    exact ⟨_, _, hexec, ⟨fun _ _ h => (nomatch h), harch⟩, rfl⟩

theorem meetsSpec_load {o : LOp} {ext : DWord → DWord}
    (hext : ∀ x : Word, ext (x.setWidth 64) = Rv64.loadExtend o x)
    (hbody : execBody cfg m (fetched s w) (operandsOf m w p.name.type) p.name =
      (do return (← setGpr cfg m (rd w) (← loadBody cfg m.mem
        (m.cpu.gpr (rs1 w) + (Rv64.immI w).signExtend 64) o.size ext), s.snpc + 4))) :
    MeetsSpec cfg s m (.load o (rd w) (rs1 w) (Rv64.immI w)) ↔
      Rv64.Accessible (InMem64 cfg) (.load o (rd w) (rs1 w) (Rv64.immI w)) (m.arch s.pc) := by
  refine ⟨fun ⟨_, _, _, hstep, _⟩ => hstep.1, fun hacc => ?_⟩
  have hin := hacc _ _ rfl
  rw [read_eq h0] at hin
  have hread := vaddrRead_ok m.mem hin (by cases o <;> decide)
  refine (meetsSpec_assign_iff hrve hfetch hsel hbody (v := Rv64.loadExtend o (Rv64.readLE
    (view m.mem) (m.cpu.gpr (rs1 w) + (Rv64.immI w).signExtend 64) o.size)) ?_ hacc).2 ?_
  · simp only [Rv64.Instr.exec, Rv64.State.next, read_eq h0, hpc]
    rfl
  · refine ⟨_, ?_, .inr rfl⟩
    rw [loadBody, hread, ← hext]
    rfl

theorem meetsSpec_store {o : SOp}
    (hbody : execBody cfg m (fetched s w) (operandsOf m w p.name.type) p.name =
      storeBody cfg m (m.cpu.gpr (rs1 w) + (Rv64.immS w).signExtend 64) o.size (m.cpu.gpr (rs2 w))
        (s.snpc + 4)) :
    MeetsSpec cfg s m (.store o (rs1 w) (rs2 w) (Rv64.immS w)) ↔
      Rv64.Accessible (InMem64 cfg) (.store o (rs1 w) (rs2 w) (Rv64.immS w)) (m.arch s.pc) := by
  refine ⟨fun ⟨_, _, _, hstep, _⟩ => hstep.1, fun hacc => ?_⟩
  have hin := hacc _ _ rfl
  rw [read_eq h0] at hin
  obtain ⟨mem', hwrite, hview⟩ :=
    vaddrWrite_ok m.mem (m.cpu.gpr (rs2 w)) hin (by cases o <;> decide)
  have hexec := isaExecOnce_selected hrve hfetch hsel
  rw [hbody, storeBody, hwrite] at hexec
  have hm : ({ m with mem := mem' } : Machine).setGpr 0 0 = { m with mem := mem' } :=
    setGpr_zero_self h0
  simp only [bind, Except.bind, pure, Except.pure, Except.map, hm] at hexec
  refine ⟨_, _, hexec, ⟨hacc, ?_⟩, rfl⟩
  simp only [Rv64.Instr.exec, Rv64.State.next, read_eq h0, ← hpc]
  exact congrArg (Rv64.State.mk m.cpu.gpr (s.snpc + 4)) hview

theorem meetsSpec_entry (hinv : p.name ≠ .inv) (hebreak : p.name ≠ .ebreak) :
    ∃ i, instrOf w p.name = some i ∧ (i.DivDefined (m.arch s.pc) → (MeetsSpec cfg s m i ↔
      Rv64.Accessible (InMem64 cfg) i (m.arch s.pc) ∧ Agrees (m.arch s.pc) i)) := by
  have htest := (selected_spec hsel).1
  have hnone {i : Rv64.Instr} (hi : i.access (m.arch s.pc) = none) :
      Rv64.Accessible (InMem64 cfg) i (m.arch s.pc) := fun a n h => by
    rw [hi] at h
    cases h
  cases hname : p.name
  case inv => exact absurd hname hinv
  case ebreak => exact absurd hname hebreak
  case add | sub | sll | slt | sltu | xor | srl | sra | or | and =>
    exact ⟨_, rfl, fun _ => (meetsSpec_op hrve hpc h0 hfetch hsel _ (by rw [hname]; rfl)).trans
      (and_iff_right (hnone rfl)).symm⟩
  case li | addi | sltiu | xori | andi =>
    exact ⟨_, rfl, fun _ => (meetsSpec_opImm hrve hpc h0 hfetch hsel _ (by rw [hname]; rfl)).trans
      (and_iff_right (hnone rfl)).symm⟩
  case mul | mulh | div | divu | rem | remu =>
    exact ⟨_, rfl, fun hdef => (meetsSpec_mop hrve hpc h0 hfetch hsel (by decide) hdef
      (by rw [hname]; rfl)).trans (and_iff_right (hnone rfl)).symm⟩
  case slli | srli | srai =>
    rw [hname] at htest
    simp only [InstName.shape, Shape.test, Bool.and_eq_true, beq_iff_eq] at htest
    refine ⟨_, rfl, fun _ => (meetsSpec_shiftImm hrve hpc h0 hfetch hsel ?_ ?_
      (by rw [hname]; rfl)).trans (and_iff_right (hnone rfl)).symm⟩
    · rw [htest.2.2]
      decide
    · rw [immI_append, htest.2.2]
      generalize rs2 w = r
      revert r
      decide
  case lui | auipc =>
    refine ⟨_, rfl, fun _ => iff_of_true (meetsSpec_assign hrve hfetch hsel (by rw [hname]; rfl) ?_
      (hnone rfl)) ⟨hnone rfl, trivial⟩⟩
    simp only [Rv64.Instr.exec, Rv64.State.next, fetched, hpc]
    rfl
  case jal =>
    exact ⟨_, rfl, fun _ => iff_of_true (meetsSpec_jal hrve hpc hfetch hsel (by rw [hname]; rfl))
      ⟨hnone rfl, trivial⟩⟩
  case jalr =>
    refine ⟨_, rfl, fun _ => iff_of_true (meetsSpec_assign hrve hfetch hsel (by rw [hname]; rfl) ?_
      (hnone rfl)) ⟨hnone rfl, trivial⟩⟩
    simp only [Rv64.Instr.exec, read_eq h0]
    rfl
  case beq | bne | blt | bge | bltu | bgeu =>
    exact ⟨_, rfl, fun _ => (meetsSpec_branch hrve hpc h0 hfetch hsel _ (by rw [hname]; rfl)).trans
      (and_iff_right (hnone rfl)).symm⟩
  case lb | lh | lw | lbu | lhu =>
    refine ⟨_, rfl, fun _ => (meetsSpec_load hrve hpc h0 hfetch hsel ?_ (by rw [hname]; rfl)).trans
      (and_iff_left trivial).symm⟩
    intro x
    simp only [Rv64.loadExtend, SEXT, id_eq, BitVec.setWidth_setWidth_of_le, Nat.reduceLeDiff,
      BitVec.setWidth_eq]
  case sb | sh | sw =>
    exact ⟨_, rfl, fun _ => (meetsSpec_store hrve hpc h0 hfetch hsel (by rw [hname]; rfl)).trans
      (and_iff_left trivial).symm⟩

end Steps

/-- The word is sent neither to `inv` nor to `ebreak`. -/
def Executed (w : Word) : Prop := ∃ p, selected w = some p ∧ p.name ≠ .inv ∧ p.name ≠ .ebreak

/-- What is executed is an instruction of RV64IM, and one call does what it says exactly where its
access is one the memory has and computing on 32 bits makes no difference. -/
theorem rv64im_meets_iff {cfg : Config} {s : Decode} {m : Machine} {w : Word}
    (hrve : cfg.RVE = false) (hpc : s.snpc = s.pc) (h0 : m.cpu.gpr 0 = 0)
    (hfetch : vaddrIfetch cfg m.mem s.snpc 4 = .ok (w.setWidth 64)) (hexec : Executed w) :
    ∃ i, Rv64.decode w = some i ∧ (i.DivDefined (m.arch s.pc) → (MeetsSpec cfg s m i ↔
      Rv64.Accessible (InMem64 cfg) i (m.arch s.pc) ∧ Agrees (m.arch s.pc) i)) := by
  obtain ⟨p, hsel, hinv, hebreak⟩ := hexec
  obtain ⟨i, hi, hmeets⟩ := meetsSpec_entry hrve hpc h0 hfetch hsel hinv hebreak
  have hdecode := decode_of_test (selected_spec hsel).1 hinv hebreak
  exact ⟨i, hdecode.trans hi, hmeets⟩

/-- The machine about to run `w` at the start of flash, with `x2` holding `v`. -/
def startAt (w : Word) (v : DWord) : Machine :=
  { cpu := ⟨Function.update 0 2 v, 0x30000000⟩
    mem := imageOf w
    nemuState := ⟨.RUNNING, 0, 0⟩
    isSkipRef := false
    skipDutNrInst := 0 }

def decodeAt : Decode := ⟨0x30000000, 0x30000000, 0, 0⟩

theorem startAt_fetch (w : Word) (v : DWord) :
    vaddrIfetch defaultConfig (startAt w v).mem decodeAt.snpc 4 = .ok (w.setWidth 64) := by
  have hin : InMem64 defaultConfig decodeAt.snpc 4 :=
    .inl ⟨by decide, by decide, by decide, by decide⟩
  have hread : Rv64.readLE (view (imageOf w)) decodeAt.snpc 4 = w := by
    conv_rhs => rw [← leWord_byteOf w]
    refine leWord_congr fun k hk => ?_
    interval_cases k <;> rfl
  exact (vaddrRead_ok _ hin (by decide)).trans
    (congrArg (fun x : Word => Except.ok (x.setWidth 64)) hread)

def sltuWord : Word := encodeR 0 2 0 0b011 1 0b0110011

theorem selected_sltuWord : ∃ p, selected sltuWord = some p ∧ p.name = .sltu := by
  rw [selected_eq]
  exact ⟨_, rfl, rfl⟩

theorem sltuWord_executed : Executed sltuWord := by
  obtain ⟨p, hsel, hname⟩ := selected_sltuWord
  exact ⟨p, hsel, by rw [hname]; decide, by rw [hname]; decide⟩

theorem rv64im_meets_iff_sltu :
    ∃ i, Rv64.decode sltuWord = some i ∧ (i.DivDefined ((startAt sltuWord 5).arch decodeAt.pc) →
      (MeetsSpec defaultConfig decodeAt (startAt sltuWord 5) i ↔
        Rv64.Accessible (InMem64 defaultConfig) i ((startAt sltuWord 5).arch decodeAt.pc) ∧
          Agrees ((startAt sltuWord 5).arch decodeAt.pc) i)) :=
  rv64im_meets_iff rfl rfl (by decide) (startAt_fetch _ _) sltuWord_executed

/-- With `2 ^ 32` in `x2` the comparison sees zero. -/
theorem not_rv64im_meets :
    ¬ ∀ (cfg : Config) (s : Decode) (m : Machine) (w : Word), cfg.RVE = false → s.snpc = s.pc →
      m.cpu.gpr 0 = 0 → vaddrIfetch cfg m.mem s.snpc 4 = .ok (w.setWidth 64) → Executed w →
      ∃ i, Rv64.decode w = some i ∧ (i.DivDefined (m.arch s.pc) → MeetsSpec cfg s m i) := by
  intro h
  obtain ⟨i, hi, hmeets⟩ := h defaultConfig decodeAt (startAt sltuWord (2 ^ 32)) sltuWord rfl rfl
    (by decide) (startAt_fetch _ _) sltuWord_executed
  have hsltu : Rv64.decode sltuWord = some (.op .sltu 1 0 2) := by decide
  rw [hsltu] at hi
  cases hi
  obtain ⟨p, hsel, hname⟩ := selected_sltuWord
  have hagree := (meetsSpec_op rfl rfl (by decide) (startAt_fetch sltuWord (2 ^ 32)) hsel .sltu
    (by rw [hname]; rfl)).1 (hmeets trivial)
  have hno : ¬ ((1 : Reg) = 0 ∨ UnsignedAgree 0 (2 ^ 32)) := by
    unfold UnsignedAgree
    decide
  exact hno hagree

end Ysyx.Nemu.Riscv64
