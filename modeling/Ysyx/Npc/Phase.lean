import Ysyx.Npc.Core

/-! The handshake of the core as one state machine. After a reset the control
registers of the five clocked modules only take the combinations listed by
`Phase.control`; for each of them one lemma gives the whole next state. -/

namespace Ysyx.Npc

open Bytes Rv32

structure Control where
  pcValid : Bool
  ifuState : BusState
  ifuValid : Bool
  ifuReqValid : Bool
  lsuState : BusState
  lsuReady : Bool
  lsuValid : Bool
  lsuReqValid : Bool
  wbu : WBU
  deriving DecidableEq

def Core.control (c : Core) : Control where
  pcValid := c.pc.valid
  ifuState := c.ifu.state
  ifuValid := c.ifu.valid
  ifuReqValid := c.ifu.reqValid
  lsuState := c.lsu.state
  lsuReady := c.lsu.ready
  lsuValid := c.lsu.valid
  lsuReqValid := c.lsu.reqValid
  wbu := c.wbu

/-- `fetch` and `access` wait for a response; their argument says whether the
request is still being shown. -/
inductive Phase where
  | start | fetch (req : Bool) | dispatch | retire | access (req : Bool) | accessDone | accessRetire
  deriving DecidableEq, Repr

def Phase.control : Phase → Control
  | .start => ⟨true, .idle, false, false, .idle, false, false, false, ⟨.idle, false, false⟩⟩
  | .fetch b => ⟨false, .wait, false, b, .idle, false, false, false, ⟨.idle, false, false⟩⟩
  | .dispatch => ⟨false, .idle, true, false, .idle, false, false, false, ⟨.idle, false, false⟩⟩
  | .retire => ⟨false, .idle, true, false, .idle, false, false, false, ⟨.wait, true, true⟩⟩
  | .access b => ⟨false, .idle, b, false, .wait, b, false, b, ⟨.lsuwait, false, false⟩⟩
  | .accessDone => ⟨false, .idle, false, false, .idle, false, true, false, ⟨.lsuwait, false, false⟩⟩
  | .accessRetire => ⟨false, .idle, false, false, .idle, false, true, false, ⟨.idle, true, true⟩⟩

/-- Whether the instruction being executed uses the LSU, where the phase settles it. -/
def Phase.working : Phase → Option Bool
  | .retire => some false
  | .access _ | .accessDone | .accessRetire => some true
  | .start | .fetch _ | .dispatch => none

def Phase.lsuWen (wen : Bool) : Phase → Bool
  | .access _ => wen
  | _ => false

structure InPhase (p : Phase) (c : Core) : Prop where
  control : c.control = p.control
  working : ∀ b, p.working = some b → c.idu.working = b
  wen : c.lsu.wen = p.lsuWen c.idu.wen

def Phase.next (working ifuResp lsuResp : Bool) : Phase → Phase
  | .start => .fetch true
  | .fetch _ => if ifuResp then .dispatch else .fetch false
  | .dispatch => if working then .access true else .retire
  | .retire => .start
  | .access _ => if lsuResp then .accessDone else .access false
  | .accessDone => .accessRetire
  | .accessRetire => .start

def Core.mcycleNext (c : Core) : BitVec 64 := csrNext false c.idu c.exu.csrWdata c.mcycle

section Edges

variable {c : Core} {i : Inputs}

theorem next_reset (h : i.reset = true) :
    InPhase .start (c.next i) ∧ (c.next i).pc.pc = 0x30000000 := by
  refine ⟨⟨?_, ?_, ?_⟩, ?_⟩
  · simp [Core.next, Core.control, Phase.control, IFU.next, LSU.next, PC.next, WBU.next, h]
  · intro b hb
    cases hb
  · simp [Core.next, LSU.next, Phase.lsuWen, h]
  · simp [Core.next, PC.next, h]

theorem next_start (h : c.control = Phase.start.control) (hr : i.reset = false) :
    c.next i =
      { c with
        ifu := { c.ifu with state := .wait, raddr := c.pc.pc, reqValid := true }
        pc := { c.pc with valid := false }
        mcycle := c.mcycleNext } := by
  obtain ⟨⟨_, _, _, _, _⟩, ⟨_, _, _, _, _, _, _, _, _, _⟩, ⟨_, _⟩, _, _, _⟩ := c
  simp only [Core.control, Phase.control, Control.mk.injEq] at h
  obtain ⟨rfl, rfl, rfl, rfl, rfl, rfl, rfl, rfl, rfl⟩ := h
  simp [Core.next, IFU.next, LSU.next, PC.next, WBU.next, RegisterFile.next, Core.mcycleNext, hr]

theorem next_fetch {b : Bool} (h : c.control = (Phase.fetch b).control) (hr : i.reset = false) :
    c.next i =
      { c with
        ifu :=
          if i.ifuRespValid then
            { c.ifu with state := .idle, valid := true, inst := i.ifuRdata, reqValid := false }
          else { c.ifu with reqValid := false }
        mcycle := c.mcycleNext } := by
  obtain ⟨⟨_, _, _, _, _⟩, ⟨_, _, _, _, _, _, _, _, _, _⟩, ⟨_, _⟩, _, _, _⟩ := c
  simp only [Core.control, Phase.control, Control.mk.injEq] at h
  obtain ⟨rfl, rfl, rfl, rfl, rfl, rfl, rfl, rfl, rfl⟩ := h
  simp [Core.next, IFU.next, LSU.next, PC.next, WBU.next, RegisterFile.next, Core.mcycleNext, hr]

theorem next_dispatch_retire (h : c.control = Phase.dispatch.control)
    (hw : c.idu.working = false) (hr : i.reset = false) :
    c.next i = { c with wbu := ⟨.wait, true, true⟩, mcycle := c.mcycleNext } := by
  have hwr : (c.idu.wen || c.idu.ren) = false := by rw [Bool.or_comm]; exact hw
  obtain ⟨⟨_, _, _, _, _⟩, ⟨_, _, _, _, _, _, _, _, _, _⟩, ⟨_, _⟩, _, _, _⟩ := c
  simp only [Core.control, Phase.control, Control.mk.injEq] at h
  obtain ⟨rfl, rfl, rfl, rfl, rfl, rfl, rfl, rfl, rfl⟩ := h
  simp [Core.next, IFU.next, LSU.next, PC.next, WBU.next, RegisterFile.next, Core.mcycleNext, hr,
    hw, hwr]

theorem next_dispatch_access (h : c.control = Phase.dispatch.control)
    (hw : c.idu.working = true) (hr : i.reset = false) :
    c.next i =
      { c with
        lsu :=
          { c.lsu with
            state := .wait, ready := true, wen := c.idu.wen, addr := c.exu.aluOut
            wmask := c.idu.wmask <<< (c.exu.aluOut.extractLsb' 0 2).toNat
            wdata := c.r2Data <<< (8 * (c.exu.aluOut.extractLsb' 0 2).toNat)
            reqValid := true
            size :=
              if c.idu.sSb || c.idu.lLbu then 0b00
              else if c.idu.sSw || c.idu.lLw then 0b10 else 0b00 }
        wbu := ⟨.lsuwait, false, false⟩
        mcycle := c.mcycleNext } := by
  have hwr : (c.idu.wen || c.idu.ren) = true := by rw [Bool.or_comm]; exact hw
  obtain ⟨⟨_, _, _, _, _⟩, ⟨_, _, _, _, _, _, _, _, _, _⟩, ⟨_, _⟩, _, _, _⟩ := c
  simp only [Core.control, Phase.control, Control.mk.injEq] at h
  obtain ⟨rfl, rfl, rfl, rfl, rfl, rfl, rfl, rfl, rfl⟩ := h
  simp only [Core.next, IFU.next, LSU.next, PC.next, WBU.next, RegisterFile.next, Core.mcycleNext,
    hr, hw, hwr, Bool.true_and, if_true, Bool.false_and, Bool.or_false, if_false,
    Bool.false_eq_true]

/-- What the retiring edge does: the register file, unless a store retires, and the pc. -/
def Core.writeBack (c : Core) : Core :=
  { c with
    pc := ⟨true, c.nextPc⟩
    rf := c.rf.next (!c.idu.wen) c.idu.rd c.regWdata
    wbu := ⟨.idle, false, false⟩
    mcycle := c.mcycleNext }

theorem next_retire (h : c.control = Phase.retire.control) (hw : c.idu.working = false)
    (hr : i.reset = false) :
    c.next i = { c.writeBack with ifu := { c.ifu with valid := false } } := by
  have hwr : c.idu.wen = false ∧ c.idu.ren = false := by
    rw [IDU.working, Bool.or_eq_false_iff] at hw
    exact hw.symm
  have hstore : (c.idu.sSb || c.idu.sSw) = false := hwr.1
  obtain ⟨⟨_, _, _, _, _⟩, ⟨_, _, _, _, _, _, _, _, _, _⟩, ⟨_, _⟩, _, _, _⟩ := c
  simp only [Core.control, Phase.control, Control.mk.injEq] at h
  obtain ⟨rfl, rfl, rfl, rfl, rfl, rfl, rfl, rfl, rfl⟩ := h
  simp only [Core.next, Core.writeBack, IFU.next, LSU.next, PC.next, WBU.next, Core.mcycleNext, hwr,
    hstore, hr]
  rfl

theorem next_access {b : Bool} (h : c.control = (Phase.access b).control)
    (hr : i.reset = false) :
    c.next i =
      { c with
        ifu := { c.ifu with valid := false }
        lsu :=
          if i.lsuRespValid then
            { c.lsu with
              state := .idle, ready := false, reqValid := false, valid := true, wen := false
              regWriteData :=
                let deviation := i.lsuRdata >>> (8 * (c.lsu.addr.extractLsb' 0 2).toNat)
                if c.idu.lLw then deviation
                else if c.idu.lLbu then (deviation.extractLsb' 0 8).setWidth 32
                else 0 }
          else { c.lsu with ready := false, reqValid := false }
        mcycle := c.mcycleNext } := by
  cases b
  all_goals
    obtain ⟨⟨_, _, _, _, _⟩, ⟨_, _, _, _, _, _, _, _, _, _⟩, ⟨_, _⟩, _, _, _⟩ := c
    simp only [Core.control, Phase.control, Control.mk.injEq] at h
    obtain ⟨rfl, rfl, rfl, rfl, rfl, rfl, rfl, rfl, rfl⟩ := h
    simp [Core.next, IFU.next, LSU.next, PC.next, WBU.next, RegisterFile.next, Core.mcycleNext, hr]

theorem next_accessDone (h : c.control = Phase.accessDone.control) (hr : i.reset = false) :
    c.next i = { c with wbu := ⟨.idle, true, true⟩, mcycle := c.mcycleNext } := by
  obtain ⟨⟨_, _, _, _, _⟩, ⟨_, _, _, _, _, _, _, _, _, _⟩, ⟨_, _⟩, _, _, _⟩ := c
  simp only [Core.control, Phase.control, Control.mk.injEq] at h
  obtain ⟨rfl, rfl, rfl, rfl, rfl, rfl, rfl, rfl, rfl⟩ := h
  simp [Core.next, IFU.next, LSU.next, PC.next, WBU.next, RegisterFile.next, Core.mcycleNext, hr]

theorem next_accessRetire (h : c.control = Phase.accessRetire.control) (hr : i.reset = false) :
    c.next i = { c.writeBack with lsu := { c.lsu with valid := false } } := by
  obtain ⟨⟨_, _, _, _, _⟩, ⟨_, _, _, _, _, _, _, _, _, _⟩, ⟨_, _⟩, _, _, _⟩ := c
  simp only [Core.control, Phase.control, Control.mk.injEq] at h
  obtain ⟨rfl, rfl, rfl, rfl, rfl, rfl, rfl, rfl, rfl⟩ := h
  simp [Core.next, Core.writeBack, IFU.next, LSU.next, PC.next, WBU.next, RegisterFile.next,
    Core.mcycleNext, IDU.wen, hr]

end Edges

section Step

variable {c : Core} {i : Inputs} {p : Phase}

/-- Every edge with `reset` low follows `Phase.next`. -/
theorem InPhase.step (h : InPhase p c) (hr : i.reset = false) :
    InPhase (p.next c.idu.working i.ifuRespValid i.lsuRespValid) (c.next i) := by
  obtain ⟨hc, hw, hwen⟩ := h
  cases p with
  | start =>
    rw [next_start hc hr]
    exact ⟨by simp_all [Core.control, Phase.control, Phase.next], fun b hb => (by cases hb), hwen⟩
  | fetch b =>
    rw [next_fetch hc hr]
    cases hresp : i.ifuRespValid
    all_goals
      exact ⟨by simp_all [Core.control, Phase.control, Phase.next], fun b hb => (by cases hb), hwen⟩
  | dispatch =>
    cases hwork : c.idu.working with
    | false =>
      rw [next_dispatch_retire hc hwork hr]
      exact ⟨by simp_all [Core.control, Phase.control, Phase.next],
        fun b hb => Option.some.inj hb ▸ hwork, hwen⟩
    | true =>
      rw [next_dispatch_access hc hwork hr]
      exact ⟨by simp_all [Core.control, Phase.control, Phase.next],
        fun b hb => Option.some.inj hb ▸ hwork, rfl⟩
  | retire =>
    rw [next_retire hc (hw _ rfl) hr]
    exact ⟨by simp_all [Core.control, Phase.control, Phase.next, Core.writeBack],
      fun b hb => (by cases hb), hwen⟩
  | access b =>
    rw [next_access hc hr]
    cases hresp : i.lsuRespValid with
    | false =>
      exact ⟨by simp_all [Core.control, Phase.control, Phase.next],
        fun b hb => Option.some.inj hb ▸ hw _ rfl, hwen⟩
    | true =>
      exact ⟨by simp_all [Core.control, Phase.control, Phase.next],
        fun b hb => Option.some.inj hb ▸ hw _ rfl, rfl⟩
  | accessDone =>
    rw [next_accessDone hc hr]
    exact ⟨by simp_all [Core.control, Phase.control, Phase.next],
      fun b hb => Option.some.inj hb ▸ hw _ rfl, hwen⟩
  | accessRetire =>
    rw [next_accessRetire hc hr]
    exact ⟨by simp_all [Core.control, Phase.control, Phase.next, Core.writeBack],
      fun b hb => (by cases hb), hwen⟩

/-- The latched instruction changes with an accepted fetch response only. -/
theorem next_inst (hr : i.reset = false) :
    (c.next i).ifu.inst =
      if c.ifu.state = .wait ∧ i.ifuRespValid = true then i.ifuRdata else c.ifu.inst := by
  simp only [Core.next, IFU.next, hr]
  cases c.ifu.state <;> simp <;> split_ifs <;> rfl

theorem next_pc (hr : i.reset = false) :
    (c.next i).pc.pc = if c.wbu.valid then c.nextPc else c.pc.pc := by
  simp only [Core.next, PC.next, hr]
  split_ifs <;> first | rfl | contradiction

end Step

def Control.phase (k : Control) : Phase :=
  if k.pcValid then .start
  else if k.ifuState = .wait then .fetch k.ifuReqValid
  else if k.lsuState = .wait then .access k.lsuReqValid
  else match k.wbu.state, k.wbu.valid with
    | .lsuwait, _ => .accessDone
    | .wait, _ => .retire
    | _, true => .accessRetire
    | _, false => .dispatch

theorem phase_control (p : Phase) : p.control.phase = p := by
  cases p <;> rfl

def Core.phase (c : Core) : Phase := c.control.phase

/-- The registers are in the phase that they show. -/
def Core.Legal (c : Core) : Prop := InPhase c.phase c

theorem InPhase.phase_eq {p : Phase} {c : Core} (h : InPhase p c) : c.phase = p := by
  rw [Core.phase, h.control, phase_control]

theorem InPhase.legal {p : Phase} {c : Core} (h : InPhase p c) : c.Legal := by
  rw [Core.Legal, h.phase_eq]
  exact h

end Ysyx.Npc
