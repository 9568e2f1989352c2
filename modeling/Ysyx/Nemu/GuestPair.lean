import Ysyx.Lib.Lockstep
import Ysyx.Nemu.Iteration

/-! One instruction on two machines with the same registers and memory, built with other options:
they fail alike, or have the same registers and memory again and go on or end alike. -/

namespace Ysyx.Nemu

open Bytes

/-- The same target, built with other options. -/
def Config.build (cfg : Config) (difftest watchpoint : Bool) : Config :=
  { cfg with DIFFTEST := difftest, WATCHPOINT := watchpoint }

structure SameGuest (m m' : Machine) : Prop where
  cpu : m'.cpu = m.cpu
  mem : m'.mem = m.mem

section Instructions

variable {cfg : Config} {m m' : Machine} (d w : Bool)

theorem setGpr_lockstep (h : SameGuest m m') (r : Reg) (v : Word) :
    Lockstep SameGuest (setGpr cfg m r v) (setGpr (cfg.build d w) m' r v) := by
  have hidx : checkRegIdx (cfg.build d w) r = checkRegIdx cfg r := rfl
  rw [setGpr, setGpr, hidx]
  refine .same fun a _ => .ok ⟨?_, h.mem⟩
  rw [Machine.setGpr, Machine.setGpr, h.cpu]

theorem gpr_build (h : SameGuest m m') (r : Reg) : gpr (cfg.build d w) m' r = gpr cfg m r := by
  have hidx : checkRegIdx (cfg.build d w) r = checkRegIdx cfg r := rfl
  rw [gpr, gpr, hidx, h.cpu]

theorem decodeOperand_build (h : SameGuest m m') (i : Word) (type : OperandType) :
    decodeOperand (cfg.build d w) m' i type = decodeOperand cfg m i type := by
  cases type <;> simp only [decodeOperand, gpr_build d w h]

/-- How two machines have gone on: without a change of their run states, or both ended the same way. -/
inductive Went (cfg cfg' : Config) (m m' a a' : Machine) : Prop
  | on (h : SameRun m a) (h' : SameRun m' a')
  | ended (state : RunState) (pc ret : Word) (h : SameRun (setNemuState cfg m state pc ret) a)
      (h' : SameRun (setNemuState cfg' m' state pc ret) a') (hmem : a.mem = m.mem)

theorem Went.trans {cfg' : Config} {a a' b b' : Machine} (h : Went cfg cfg' m m' a a')
    (hb : SameRun a b) (hb' : SameRun a' b') (hmem : b.mem = a.mem) : Went cfg cfg' m m' b b' := by
  cases h with
  | on h h' => exact .on (h.trans hb) (h'.trans hb')
  | ended state pc ret h h' hmem' =>
    exact .ended state pc ret (h.trans hb) (h'.trans hb') (hmem.trans hmem')

variable {s : Decode} {o : Operands}

theorem setNemuState_guest {cfg' : Config} (h : SameGuest m m') (state : RunState) (pc ret : Word) :
    SameGuest (setNemuState cfg m state pc ret) (setNemuState cfg' m' state pc ret) := by
  have hskip (c : Config) (a : Machine) : SameGuest a (difftestSkipRef c a) := by
    unfold difftestSkipRef
    split_ifs <;> exact ⟨rfl, rfl⟩
  obtain ⟨hcpu, hmem⟩ := hskip cfg m
  obtain ⟨hcpu', hmem'⟩ := hskip cfg' m'
  exact ⟨hcpu'.trans (h.cpu.trans hcpu.symm), hmem'.trans (h.mem.trans hmem.symm)⟩

theorem invalidInst_guest (h : SameGuest m m') (pc : Word) :
    Lockstep SameGuest (invalidInst cfg m pc) (invalidInst (cfg.build d w) m' pc) := by
  have hfetch (a : Word) : vaddrIfetch (cfg.build d w) m'.mem a 4 = vaddrIfetch cfg m.mem a 4 := by
    rw [h.mem]
    rfl
  rw [invalidInst, invalidInst, hfetch, hfetch]
  exact .same fun _ _ => .same fun _ _ => .ok (setNemuState_guest h _ _ _)

theorem execBody_guest (h : SameGuest m m') (name : InstName) :
    Lockstep (fun a a' => SameGuest a.1 a'.1 ∧ a.2 = a'.2) (execBody cfg m s o name)
      (execBody (cfg.build d w) m' s o name) := by
  have hassign (r : Reg) (e : Except Fault Word) (dnpc : Word) :
      Lockstep (fun a a' => SameGuest a.1 a'.1 ∧ a.2 = a'.2)
        (do return (← setGpr cfg m r (← e), dnpc))
        (do return (← setGpr (cfg.build d w) m' r (← e), dnpc)) :=
    .same fun v _ => (setGpr_lockstep d w h r v).bind fun _ _ hab => .ok ⟨hab, rfl⟩
  have hlink (r : Reg) (v dnpc : Word) :
      Lockstep (fun a a' => SameGuest a.1 a'.1 ∧ a.2 = a'.2)
        (do return (← setGpr cfg m r v, dnpc)) (do return (← setGpr (cfg.build d w) m' r v, dnpc)) :=
    (setGpr_lockstep d w h r v).bind fun _ _ hab => .ok ⟨hab, rfl⟩
  have hload (len : ℕ) (ext : Word → Word) :
      (do return ext (← vaddrRead (cfg.build d w) m'.mem (o.src1 + o.imm) len)) =
        (do return ext (← vaddrRead cfg m.mem (o.src1 + o.imm) len) : Except Fault Word) := by
    rw [h.mem]
    rfl
  have hstore (len : ℕ) :
      Lockstep (fun a a' => SameGuest a.1 a'.1 ∧ a.2 = a'.2)
        (do return ({ m with mem := ← vaddrWrite cfg m.mem (o.src1 + o.imm) len o.src2 }, s.dnpc))
        (do return ({ m' with mem := ← vaddrWrite (cfg.build d w) m'.mem (o.src1 + o.imm) len o.src2 },
          s.dnpc)) := by
    have hwrite : vaddrWrite (cfg.build d w) m'.mem (o.src1 + o.imm) len o.src2 =
        vaddrWrite cfg m.mem (o.src1 + o.imm) len o.src2 := by
      rw [h.mem]
      rfl
    rw [hwrite]
    exact .same fun _ _ => .ok ⟨⟨h.cpu, rfl⟩, rfl⟩
  have hcsr (e : CsrName → Machine → Word) (he : ∀ r a a', SameGuest a a' → e r a' = e r a) :
      Lockstep (fun a a' => SameGuest a.1 a'.1 ∧ a.2 = a'.2)
        (do
          let r ← csrRegister o.imm
          let a ← setGpr cfg m o.rd (m.cpu.csr.get r)
          return (a.setCsr r (e r a), s.dnpc))
        (do
          let r ← csrRegister o.imm
          let a ← setGpr (cfg.build d w) m' o.rd (m'.cpu.csr.get r)
          return (a.setCsr r (e r a), s.dnpc)) := by
    rw [h.cpu]
    refine .same fun r _ => (setGpr_lockstep d w h o.rd _).bind fun a a' hab => .ok ⟨⟨?_, hab.mem⟩, rfl⟩
    rw [he r a a' hab, Machine.setCsr, Machine.setCsr, hab.cpu]
  cases name
  case jal | jalr => exact hlink _ _ _
  case sb | sh | sw => exact hstore _
  case lb | lh | lw | lbu | lhu =>
    simp only [execBody, hload]
    exact hassign _ _ _
  case csrrw => exact hcsr (fun _ _ => o.src1) fun _ _ _ _ => rfl
  case csrrs =>
    exact hcsr (fun r a => a.cpu.csr.get r ||| o.src1) fun r a a' hab => by rw [hab.cpu]
  case beq | bne | blt | bge | bltu | bgeu => exact .ok ⟨h, rfl⟩
  case ecall =>
    refine .ok ⟨⟨?_, h.mem⟩, ?_⟩
    · simp only [isaRaiseIntr, h.cpu]
    · simp only [isaRaiseIntr, h.cpu]
  case mret => exact .ok ⟨h, by rw [h.cpu]⟩
  case ebreak =>
    simp only [execBody, gpr_build d w h]
    exact .same fun a _ => .ok ⟨setNemuState_guest h _ _ _, rfl⟩
  case inv => exact (invalidInst_guest d w h _).bind fun _ _ hab => .ok ⟨hab, rfl⟩
  all_goals exact hassign _ _ _

/-- What is the same after an instruction, and how both have gone on. -/
structure Pair (cfg cfg' : Config) (m m' a a' : Machine) : Prop where
  guest : SameGuest a a'
  went : Went cfg cfg' m m' a a'

theorem execBody_pair (h : SameGuest m m') (name : InstName) :
    Lockstep (fun a a' => Pair cfg (cfg.build d w) m m' a.1 a'.1 ∧ a.2 = a'.2)
      (execBody cfg m s o name) (execBody (cfg.build d w) m' s o name) := by
  by_cases he : name = .ebreak
  · subst he
    simp only [execBody, gpr_build d w h]
    exact .same fun a _ => .ok ⟨⟨setNemuState_guest h _ _ _, .ended _ _ _ (.refl _) (.refl _) (by
      unfold setNemuState difftestSkipRef
      split_ifs <;> rfl)⟩, rfl⟩
  by_cases hi : name = .inv
  · subst hi
    refine ((invalidInst_guest d w h s.pc).with_results).bind fun a a' ⟨hab, ha, ha'⟩ => ?_
    obtain ⟨i₁, -, ha⟩ := bind_eq_ok.mp ha
    obtain ⟨i₂, -, ha⟩ := bind_eq_ok.mp ha
    obtain ⟨i₃, -, ha'⟩ := bind_eq_ok.mp ha'
    obtain ⟨i₄, -, ha'⟩ := bind_eq_ok.mp ha'
    cases ha
    cases ha'
    exact .ok ⟨⟨hab, .ended _ _ _ (.refl _) (.refl _) (by
      unfold setNemuState difftestSkipRef
      split_ifs <;> rfl)⟩, rfl⟩
  refine (execBody_guest d w h name).with_results.mono fun a a' ⟨⟨hab, hd⟩, ha, ha'⟩ => ?_
  exact ⟨⟨hab, .on (sameRun_execBody he hi ha) (sameRun_execBody he hi ha')⟩, hd⟩

variable (cfg) in
theorem isaExecOnce_pair (h : SameGuest m m') (s : Decode) :
    Lockstep (fun a a' => a.1 = a'.1 ∧ Pair cfg (cfg.build d w) m m' a.2 a'.2)
      (isaExecOnce cfg s m) (isaExecOnce (cfg.build d w) s m') := by
  have hfetch : vaddrIfetch (cfg.build d w) m'.mem s.snpc 4 = vaddrIfetch cfg m.mem s.snpc 4 := by
    rw [h.mem]
    rfl
  rw [isaExecOnce, isaExecOnce, hfetch]
  refine .same fun inst _ => ?_
  obtain ⟨p, hp⟩ := find_some inst
  simp only [decodeExec, hp, decodeOperand_build d w h]
  refine .same fun o _ => (execBody_pair d w h p.name).bind fun a a' ha => ?_
  obtain ⟨hpair, hdnpc⟩ := ha
  refine (setGpr_lockstep d w hpair.guest 0 0).with_results.bind fun b b' hbs => ?_
  obtain ⟨hguest, hb, hb'⟩ := hbs
  refine .ok ⟨by rw [hdnpc], hguest, hpair.went.trans (sameRun_setGpr hb) (sameRun_setGpr hb') ?_⟩
  rw [setGpr_eq_ok hb]
  rfl

end Instructions

end Ysyx.Nemu
