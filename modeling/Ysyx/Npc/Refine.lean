import Ysyx.Npc.WriteBack
import Ysyx.Npc.Protocol
import Ysyx.Nemu.GuestCode

/-! The core refines the interpreter. From `start` to `start` the core and its
memory execute one instruction of the RV32I specification, whatever the
latencies are, with one retiring cycle, the last; one call of `isa_exec_once`
executes the same instruction. -/

namespace Ysyx.Npc

open Bytes Rv32 Sync

/-- A run of the core with its memory. -/
abbrev SysTrace (ch : ℕ → Choice) (sys : ℕ → Sys) : Prop := Trace (fun ch s => s.next ch) ch sys

/-- No instruction retires in the cycles from `t` to `u`. -/
def Quiet (sys : ℕ → Sys) (t u : ℕ) : Prop :=
  ∀ v, t ≤ v → v < u → (sys v).core.wbu.valid = false

theorem Quiet.trans {sys : ℕ → Sys} {t u v : ℕ} (h : Quiet sys t u) (h' : Quiet sys u v) :
    Quiet sys t v := by
  intro w hw hwv
  rcases Nat.lt_or_ge w u with hlt | hge
  · exact h w hw hlt
  · exact h' w hge hwv

theorem Quiet.single {sys : ℕ → Sys} {t : ℕ} (h : (sys t).core.wbu.valid = false) :
    Quiet sys t (t + 1) := by
  intro v hv hvt
  rw [show v = t by omega]
  exact h

/-- What the fetch of an instruction leaves alone. -/
structure Keeps (s s' : Sys) : Prop where
  rf : s'.core.rf = s.core.rf
  pc : s'.core.pc.pc = s.core.pc.pc
  mem : s'.mem = s.mem

section Segments

variable {ch : ℕ → Choice} {sys : ℕ → Sys}

theorem InPhase.quiet {p : Phase} {s : ℕ → Sys} {t : ℕ} (h : InPhase p (s t).core)
    (hp : p.control.wbu.valid = false) : Quiet s t (t + 1) :=
  Quiet.single ((congrArg (fun k => k.wbu.valid) h.control).trans hp)

theorem InPhase.lsuReqValid {p : Phase} {c : Core} (h : InPhase p c) :
    c.lsu.reqValid = p.control.lsuReqValid := congrArg Control.lsuReqValid h.control

theorem InPhase.ifuReqValid {p : Phase} {c : Core} (h : InPhase p c) :
    c.ifu.reqValid = p.control.ifuReqValid := congrArg Control.ifuReqValid h.control

/-- Without a request outstanding the LSU side of the memory does nothing. -/
theorem next_no_access {s : Sys} {c : Choice} (hreq : s.core.lsu.reqValid = false)
    (hacc : s.access = none) : (s.next c).mem = s.mem ∧ (s.next c).access = none := by
  have hnow : s.accessNow c = none := by rw [Sys.accessNow, hreq, hacc]; rfl
  constructor
  · simp only [Sys.next, Sys.memNext, hnow]
    rfl
  · simp only [Sys.next, hnow]
    rfl

theorem next_no_fetch {s : Sys} {c : Choice} (hreq : s.core.ifu.reqValid = false)
    (hf : s.fetch = none) : (s.next c).fetch = none := by
  have hnow : s.fetchNow c = none := by rw [Sys.fetchNow, hreq, hf]; rfl
  simp only [Sys.next, hnow]
  rfl

theorem SysTrace.succ (h : SysTrace ch sys) (t : ℕ) : sys (t + 1) = (sys t).next (ch t) := h t

theorem next_core (s : Sys) (c : Choice) : (s.next c).core = s.core.next (s.inputs c) := rfl

/-- A fetch waits until its answer comes, and then the word at the pc is latched. -/
theorem fetch_answers (hrun : SysTrace ch sys) (k : ℕ) {t : ℕ} {b : Bool} {a : Word}
    (hp : InPhase (.fetch b) (sys t).core) (hnow : (sys t).fetchNow (ch t) = some (k, a))
    (hacc : (sys t).access = none) :
    ∃ u > t, Quiet sys t u ∧ InPhase .dispatch (sys u).core ∧
      (sys u).core.ifu.inst = alignedWord (sys t).mem a ∧ Keeps (sys t) (sys u) ∧
      (sys u).fetch = none ∧ (sys u).access = none := by
  have hquiet := hp.quiet (s := sys) rfl
  have hs := hrun.succ t
  induction k generalizing t b with
  | zero =>
    obtain ⟨hmem, hacc'⟩ := next_no_access (c := ch t) hp.lsuReqValid hacc
    have hcore := next_fetch (i := (sys t).inputs (ch t)) hp.control rfl
    have hresp : ((sys t).inputs (ch t)).ifuRespValid = true := by
      simp only [Sys.inputs, hnow]
      rfl
    have hdata : ((sys t).inputs (ch t)).ifuRdata = alignedWord (sys t).mem a := by
      simp only [Sys.inputs, hnow]
      rfl
    have hstep := hp.step (i := (sys t).inputs (ch t)) rfl
    rw [hresp] at hcore hstep
    refine ⟨t + 1, Nat.lt_succ_self t, hquiet, ?_, ?_, ?_, ?_, ?_⟩ <;> rw [hs]
    · exact hstep
    · rw [next_core, hcore, hdata]
      rfl
    · refine ⟨?_, ?_, hmem⟩ <;> rw [next_core, hcore]
    · simp only [Sys.next, hnow]
      rfl
    · exact hacc'
  | succ k ih =>
    obtain ⟨hmem, hacc'⟩ := next_no_access (c := ch t) hp.lsuReqValid hacc
    have hcore := next_fetch (i := (sys t).inputs (ch t)) hp.control rfl
    have hresp : ((sys t).inputs (ch t)).ifuRespValid = false := by
      simp only [Sys.inputs, hnow]
      rfl
    have hstep := hp.step (i := (sys t).inputs (ch t)) rfl
    rw [hresp] at hcore hstep
    -- the request is no longer shown, so the pending one is what remains of it
    have hp' : InPhase (.fetch false) (sys (t + 1)).core := by rw [hs]; exact hstep
    have hnow' : (sys (t + 1)).fetchNow (ch (t + 1)) = some (k, a) := by
      rw [Sys.fetchNow, hp'.ifuReqValid]
      simp only [hs, Sys.next, hnow]
      rfl
    obtain ⟨u, htu, hq, hd, hinst, hkeep, hf, ha⟩ :=
      ih hp' hnow' (by rw [hs]; exact hacc') (hp'.quiet rfl) (hrun.succ _)
    have hmem' : (sys (t + 1)).mem = (sys t).mem := by rw [hs]; exact hmem
    have hrf : (sys (t + 1)).core.rf = (sys t).core.rf := by rw [hs, next_core, hcore]
    have hpc : (sys (t + 1)).core.pc.pc = (sys t).core.pc.pc := by rw [hs, next_core, hcore]
    exact ⟨u, by omega, hquiet.trans hq, hd, by rw [hinst, hmem'],
      ⟨hkeep.rf.trans hrf, hkeep.pc.trans hpc, hkeep.mem.trans hmem'⟩, hf, ha⟩

/-- What an access leaves alone. -/
structure KeepsInstr (s s' : Sys) : Prop where
  inst : s'.core.ifu.inst = s.core.ifu.inst
  rf : s'.core.rf = s.core.rf
  pc : s'.core.pc.pc = s.core.pc.pc

theorem KeepsInstr.trans {s s' s'' : Sys} (h : KeepsInstr s s') (h' : KeepsInstr s' s'') :
    KeepsInstr s s'' :=
  ⟨h'.inst.trans h.inst, h'.rf.trans h.rf, h'.pc.trans h.pc⟩

/-- An access waits until its answer comes; then the LSU holds what it loaded and
memory what it stored. -/
theorem access_answers (hrun : SysTrace ch sys) (k : ℕ) {t : ℕ} {b : Bool} {req : AccessReq}
    (hp : InPhase (.access b) (sys t).core) (hnow : (sys t).accessNow (ch t) = some (k, req))
    (hfetch : (sys t).fetch = none) :
    ∃ u > t, Quiet sys t u ∧ InPhase .accessDone (sys u).core ∧ KeepsInstr (sys t) (sys u) ∧
      (sys u).core.lsu.regWriteData =
        (sys t).core.loadData (alignedWord (sys t).mem req.addr) ∧
      (sys u).mem = req.apply (sys t).mem ∧ (sys u).fetch = none ∧ (sys u).access = none := by
  have hquiet := hp.quiet (s := sys) rfl
  have hs := hrun.succ t
  induction k generalizing t b with
  | zero =>
    have hfetch' := next_no_fetch (c := ch t) hp.ifuReqValid hfetch
    have hcore := next_access (i := (sys t).inputs (ch t)) hp.control rfl
    have hresp : ((sys t).inputs (ch t)).lsuRespValid = true := by
      simp only [Sys.inputs, hnow]
      rfl
    have hdata : ((sys t).inputs (ch t)).lsuRdata = alignedWord (sys t).mem req.addr := by
      simp only [Sys.inputs, hnow]
      rfl
    have hstep := hp.step (i := (sys t).inputs (ch t)) rfl
    rw [hresp] at hcore hstep
    refine ⟨t + 1, Nat.lt_succ_self t, hquiet, ?_, ?_, ?_, ?_, ?_, ?_⟩ <;> rw [hs]
    · exact hstep
    · refine ⟨?_, ?_, ?_⟩ <;> rw [next_core, hcore]
    · rw [next_core, hcore, hdata]
      rfl
    · simp only [Sys.next, Sys.memNext, hnow]
      rfl
    · exact hfetch'
    · simp only [Sys.next, hnow]
      rfl
  | succ k ih =>
    have hfetch' := next_no_fetch (c := ch t) hp.ifuReqValid hfetch
    have hcore := next_access (i := (sys t).inputs (ch t)) hp.control rfl
    have hresp : ((sys t).inputs (ch t)).lsuRespValid = false := by
      simp only [Sys.inputs, hnow]
      rfl
    have hstep := hp.step (i := (sys t).inputs (ch t)) rfl
    rw [hresp] at hcore hstep
    have hp' : InPhase (.access false) (sys (t + 1)).core := by rw [hs]; exact hstep
    have hnow' : (sys (t + 1)).accessNow (ch (t + 1)) = some (k, req) := by
      rw [Sys.accessNow, hp'.lsuReqValid]
      simp only [hs, Sys.next, hnow]
      rfl
    obtain ⟨u, htu, hq, hd, hkeep, hload, hmem, hf, ha⟩ :=
      ih hp' hnow' (by rw [hs]; exact hfetch') (hp'.quiet rfl) (hrun.succ _)
    have hkeep' : KeepsInstr (sys t) (sys (t + 1)) := by
      refine ⟨?_, ?_, ?_⟩ <;> rw [hs, next_core, hcore]
    have hmem' : (sys (t + 1)).mem = (sys t).mem := by
      rw [hs]
      simp only [Sys.next, Sys.memNext, hnow]
      rfl
    have haddr : (sys (t + 1)).core.loadData = (sys t).core.loadData := by
      rw [hs, next_core, hcore]
      rfl
    exact ⟨u, by omega, hquiet.trans hq, hd, hkeep'.trans hkeep, by rw [hload, haddr, hmem'],
      by rw [hmem, hmem'], hf, ha⟩

def Sys.arch (s : Sys) : State := s.core.arch s.mem

/-- The system between two instructions. -/
structure Boundary (s : Sys) : Prop where
  phase : InPhase .start s.core
  fetch : s.fetch = none
  access : s.access = none
  aligned : lane s.core.pc.pc = 0

theorem lane_add_four (a : Word) : lane (a + 4) = lane a := by
  have h4 : (4 : Word).toNat = 4 := rfl
  simp only [lane, BitVec.extractLsb'_toNat, BitVec.toNat_add, Nat.shiftRight_zero, h4]
  omega

theorem exec_aligned {i : Instr} {s : State} (hi : Implemented i) (hpc : lane s.pc = 0)
    (hal : AlignedOk s i) : lane (i.exec s).pc = 0 := by
  have h4 : lane (s.pc + 4) = 0 := (lane_add_four _).trans hpc
  unfold Implemented at hi
  split at hi <;> first | exact h4 | exact hal | cases hi

theorem fetch_instr (hrun : SysTrace ch sys) {t : ℕ} (hb : Boundary (sys t)) :
    ∃ u > t, Quiet sys t u ∧ InPhase .dispatch (sys u).core ∧
      (sys u).core.ifu.inst = loadLE (sys t).mem (sys t).core.pc.pc 4 ∧ Keeps (sys t) (sys u) ∧
      (sys u).fetch = none ∧ (sys u).access = none := by
  have hs := hrun.succ t
  have hcore := next_start (i := (sys t).inputs (ch t)) hb.phase.control rfl
  obtain ⟨hmem, hacc⟩ := next_no_access (c := ch t) hb.phase.lsuReqValid hb.access
  have hp : InPhase (.fetch true) (sys (t + 1)).core := by
    rw [hs]
    exact hb.phase.step rfl
  have haddr : (sys (t + 1)).core.ifu.raddr = (sys t).core.pc.pc := by rw [hs, next_core, hcore]
  have hnow : (sys (t + 1)).fetchNow (ch (t + 1)) =
      some ((ch (t + 1)).fetchLatency, (sys t).core.pc.pc) := by
    rw [Sys.fetchNow, hp.ifuReqValid, haddr]
    rfl
  obtain ⟨u, htu, hq, hd, hinst, hkeep, hf, ha⟩ :=
    fetch_answers hrun _ hp hnow (by rw [hs]; exact hacc)
  have hmem' : (sys (t + 1)).mem = (sys t).mem := by rw [hs]; exact hmem
  refine ⟨u, by omega, (hb.phase.quiet rfl).trans hq, hd, ?_, ⟨?_, ?_, hkeep.mem.trans hmem'⟩, hf,
    ha⟩
  · rw [hinst, hmem', alignedWord_eq _ hb.aligned]
  · rw [hkeep.rf, hs, next_core, hcore]
  · rw [hkeep.pc, hs, next_core, hcore]

theorem idle_cycle (hrun : SysTrace ch sys) {t : ℕ} {p : Phase} (hp : InPhase p (sys t).core)
    (hi : p.control.ifuReqValid = false) (hl : p.control.lsuReqValid = false)
    (hf : (sys t).fetch = none) (ha : (sys t).access = none) :
    (sys (t + 1)).core = (sys t).core.next ((sys t).inputs (ch t)) ∧
      (sys (t + 1)).mem = (sys t).mem ∧ (sys (t + 1)).fetch = none ∧
      (sys (t + 1)).access = none := by
  obtain ⟨hmem, hacc⟩ := next_no_access (c := ch t) (hp.lsuReqValid.trans hl) ha
  have hfetch := next_no_fetch (c := ch t) (hp.ifuReqValid.trans hi) hf
  rw [hrun.succ t]
  exact ⟨rfl, hmem, hfetch, hacc⟩

/-- The system after an instruction has been executed from `s`. -/
structure Executed (i : Instr) (s s' : Sys) : Prop where
  phase : InPhase .start s'.core
  fetch : s'.fetch = none
  access : s'.access = none
  arch : Same s'.arch (i.exec s.arch)

/-- An instruction without an access retires in the cycle after `dispatch`. -/
theorem execute_simple (hrun : SysTrace ch sys) {t : ℕ} {i : Instr}
    (hd : InPhase .dispatch (sys t).core) (hf : (sys t).fetch = none) (ha : (sys t).access = none)
    (hinst : (sys t).core.ifu.inst = i.encode) (hi : Implemented i)
    (hnone : i.access (sys t).arch = none) :
    (sys (t + 1)).core.wbu.valid = true ∧ Executed i (sys t) (sys (t + 2)) := by
  have hw : (sys t).core.idu.working = false := by
    rw [Core.idu, hinst, working_encode hi (sys t).arch, hnone]
    rfl
  obtain ⟨hs, hmem, hf₁, ha₁⟩ := idle_cycle hrun hd rfl rfl hf ha
  have hp : InPhase .retire (sys (t + 1)).core := by
    have := hd.step (i := (sys t).inputs (ch t)) rfl
    rwa [hw, ← hs] at this
  rw [next_dispatch_retire hd.control hw rfl] at hs
  obtain ⟨hs', hmem', hf₂, ha₂⟩ := idle_cycle hrun hp rfl rfl hf₁ ha₁
  have hstart := hp.step (i := (sys (t + 1)).inputs (ch (t + 1))) rfl
  rw [← hs'] at hstart
  rw [next_retire hp.control (hp.working false rfl) rfl] at hs'
  have harch : (sys (t + 2)).arch = (sys (t + 1)).core.writeBack.arch (sys t).mem := by
    rw [Sys.arch, hmem', hmem, hs']
    rfl
  have hsame : (sys (t + 1)).core.arch (sys t).mem = (sys t).arch := by
    rw [Sys.arch, hs]
    rfl
  have hinst' : (sys (t + 1)).core.ifu.inst = i.encode := by rw [hs]; exact hinst
  have hvalid : (sys (t + 1)).core.lsu.valid = false := congrArg Control.lsuValid hp.control
  refine ⟨congrArg (fun k => k.wbu.valid) hp.control, hstart, hf₂, ha₂, ?_⟩
  rw [harch, ← hsame]
  unfold Implemented at hi
  split at hi
  · exact retire_add hinst' hi.1 hvalid
  · exact retire_addi hinst' hi.1 hvalid
  · exact retire_lui hinst' hi hvalid
  · exact retire_jalr hinst' hi.1
  all_goals first | exact hi.elim | cases hnone

/-- From the answer of an access to the retirement, which the write-back unit
starts one cycle later. -/
theorem retire_access (hrun : SysTrace ch sys) {u : ℕ} (hdone : InPhase .accessDone (sys u).core)
    (hf : (sys u).fetch = none) (ha : (sys u).access = none) :
    Quiet sys u (u + 1) ∧ InPhase .accessRetire (sys (u + 1)).core ∧
      KeepsInstr (sys u) (sys (u + 1)) ∧
      (sys (u + 1)).core.lsu.regWriteData = (sys u).core.lsu.regWriteData ∧
      InPhase .start (sys (u + 2)).core ∧ (sys (u + 2)).fetch = none ∧
      (sys (u + 2)).access = none ∧
      (sys (u + 2)).arch = (sys (u + 1)).core.writeBack.arch (sys u).mem := by
  obtain ⟨hs, hmem, hf₁, ha₁⟩ := idle_cycle hrun hdone rfl rfl hf ha
  have hp : InPhase .accessRetire (sys (u + 1)).core := by
    rw [hs]
    exact hdone.step rfl
  rw [next_accessDone hdone.control rfl] at hs
  obtain ⟨hs', hmem', hf₂, ha₂⟩ := idle_cycle hrun hp rfl rfl hf₁ ha₁
  have hstart := hp.step (i := (sys (u + 1)).inputs (ch (u + 1))) rfl
  rw [← hs'] at hstart
  rw [next_accessRetire hp.control rfl] at hs'
  refine ⟨hdone.quiet rfl, hp, ⟨?_, ?_, ?_⟩, ?_, hstart, hf₂, ha₂, ?_⟩
  · rw [hs]
  · rw [hs]
  · rw [hs]
  · rw [hs]
  · rw [Sys.arch, hmem', hmem, hs']
    rfl

theorem execute_access (hrun : SysTrace ch sys) {t : ℕ} {i : Instr}
    (hd : InPhase .dispatch (sys t).core) (hf : (sys t).fetch = none) (ha : (sys t).access = none)
    (hinst : (sys t).core.ifu.inst = i.encode) (hi : Implemented i)
    (hsome : (i.access (sys t).arch).isSome = true) (hal : AlignedOk (sys t).arch i) :
    ∃ u > t, Quiet sys t u ∧ (sys u).core.wbu.valid = true ∧
      Executed i (sys t) (sys (u + 1)) := by
  have hw : (sys t).core.idu.working = true := by
    rw [Core.idu, hinst, working_encode hi (sys t).arch, hsome]
  obtain ⟨hs, hmem, hf₁, -⟩ := idle_cycle hrun hd rfl rfl hf ha
  have hp : InPhase (.access true) (sys (t + 1)).core := by
    have := hd.step (i := (sys t).inputs (ch t)) rfl
    rwa [hw, ← hs] at this
  rw [next_dispatch_access hd.control hw rfl] at hs
  have hnow : (sys (t + 1)).accessNow (ch (t + 1)) =
      some ((ch (t + 1)).accessLatency, (sys t).core.request) := by
    rw [Sys.accessNow, hp.lsuReqValid, hs]
    rfl
  obtain ⟨u, htu, hq, hdone, hkeep, hload, hmem₁, hf₂, ha₂⟩ :=
    access_answers hrun _ hp hnow hf₁
  obtain ⟨hq', hret, hkeep', hload', hstart, hf₃, ha₃, harch⟩ := retire_access hrun hdone hf₂ ha₂
  have hfirst : KeepsInstr (sys t) (sys (t + 1)) := by
    refine ⟨?_, ?_, ?_⟩ <;> rw [hs]
  have hkept := (hfirst.trans hkeep).trans hkeep'
  have haddr : (sys (t + 1)).core.lsu.addr = (sys t).core.exu.aluOut := by rw [hs]
  rw [hmem, show (sys t).core.request.addr = _ from haddr.symm] at hload
  rw [hmem₁, hmem] at harch
  refine ⟨u + 1, by omega, ((hd.quiet rfl).trans hq).trans hq',
    congrArg (fun k => k.wbu.valid) hret.control, hstart, hf₃, ha₃, ?_⟩
  rw [harch]
  exact retire_answered hi hsome hal hinst (hfirst.inst.trans hinst) (hkept.inst.trans hinst) haddr
    hkept.rf hkept.pc (congrArg Control.lsuValid hret.control) (hload'.trans hload)

/-- From one `start` to the next the core executes the instruction at its pc. -/
theorem execute_instr (hrun : SysTrace ch sys) {t : ℕ} {i : Instr} (hb : Boundary (sys t))
    (hword : loadLE (sys t).mem (sys t).core.pc.pc 4 = i.encode) (hi : Implemented i)
    (hal : AlignedOk (sys t).arch i) :
    ∃ u ≥ t, Quiet sys t u ∧ (sys u).core.wbu.valid = true ∧ Boundary (sys (u + 1)) ∧
      Same (sys (u + 1)).arch (i.exec (sys t).arch) := by
  obtain ⟨d, htd, hq, hd, hinst, hkeep, hf, ha⟩ := fetch_instr hrun hb
  have harch : (sys d).arch = (sys t).arch := by
    rw [Sys.arch, Sys.arch, Core.arch, Core.arch, hkeep.rf, hkeep.pc, hkeep.mem]
  have hinst' := hinst.trans hword
  rw [← harch] at hal ⊢
  have hboundary {s : Sys} (he : Executed i (sys d) s) : Boundary s := by
    refine ⟨he.phase, he.fetch, he.access, ?_⟩
    rw [show s.core.pc.pc = _ from he.arch.pc]
    refine exec_aligned hi ?_ hal
    rw [harch]
    exact hb.aligned
  cases hacc : i.access (sys d).arch with
  | none =>
    obtain ⟨hv, he⟩ := execute_simple hrun hd hf ha hinst' hi hacc
    exact ⟨d + 1, by omega, hq.trans (hd.quiet rfl), hv, hboundary he, he.arch⟩
  | some r =>
    obtain ⟨u, hdu, hq', hv, he⟩ :=
      execute_access hrun hd hf ha hinst' hi (by rw [hacc]; rfl) hal
    exact ⟨u, by omega, hq.trans hq', hv, hboundary he, he.arch⟩

end Segments

open Nemu (Config Machine InMem)

/-- Two architectural states that agree on the pc, the sixteen registers and the
bytes of flash and SRAM. -/
structure AgreeOn (cfg : Config) (s s' : State) : Prop where
  pc : s.pc = s'.pc
  regs : ∀ r : Reg, r.toNat < 16 → s.read r = s'.read r
  mem : ∀ a, InMem cfg a 1 → s.mem a = s'.mem a

section Agree

variable {cfg : Config} {s s' : State} {i : Instr}

theorem AgreeOn.of_same {s'' : State} (h : Same s s') (h' : AgreeOn cfg s' s'') :
    AgreeOn cfg s s'' :=
  ⟨h.pc.trans h'.pc, fun r hr => (h.regs r hr).trans (h'.regs r hr),
    fun a ha => (congrFun h.mem a).trans (h'.mem a ha)⟩

theorem AgreeOn.load (h : AgreeOn cfg s s') {a : Word} {n : ℕ} (hin : InMem cfg a n) :
    loadLE s.mem a n = loadLE s'.mem a n :=
  loadLE_congr fun k hk => h.mem _ (hin.sub (show k + 1 ≤ n by omega))

/-- Writing a register and moving the pc keeps the agreement. -/
theorem AgreeOn.assign (h : AgreeOn cfg s s') (rd : Reg) {v v' p p' : Word} (hv : v = v')
    (hp : p = p') : AgreeOn cfg { s.write rd v with pc := p } { s'.write rd v' with pc := p' } := by
  subst hv hp
  refine ⟨rfl, fun r hr => ?_, h.mem⟩
  have hreg := h.regs r hr
  simp only [State.read, State.write] at hreg ⊢
  split_ifs at hreg ⊢ <;> first | rfl | exact hreg

/-- A store of the same data keeps the agreement. -/
theorem AgreeOn.store (h : AgreeOn cfg s s') {a a' d d' p p' : Word} (n : ℕ) (ha : a = a')
    (hd : d = d') (hp : p = p') :
    AgreeOn cfg { s with mem := storeLE s.mem a n d, pc := p }
      { s' with mem := storeLE s'.mem a' n d', pc := p' } := by
  subst ha hd hp
  refine ⟨rfl, h.regs, fun b hb => ?_⟩
  simp only [storeLE, h.mem b hb]

theorem AgreeOn.exec (h : AgreeOn cfg s s') (hi : Implemented i)
    (hacc : Nemu.AccessOk cfg s' i) : AgreeOn cfg (i.exec s) (i.exec s') := by
  have h4 : s.pc + 4 = s'.pc + 4 := by rw [h.pc]
  unfold Implemented at hi
  split at hi
  case h_1 rd rs1 rs2 =>
    exact h.assign rd (by rw [h.regs _ hi.2.1, h.regs _ hi.2.2]) h4
  case h_2 rd rs1 imm => exact h.assign rd (by rw [h.regs _ hi.2]) h4
  case h_3 rd imm => exact h.assign rd rfl h4
  case h_4 rd rs1 imm => exact h.assign rd h4 (by rw [h.regs _ hi.2])
  case h_5 rd rs1 imm =>
    refine h.assign rd ?_ h4
    rw [h.regs _ hi.2, h.load (hacc _ _ rfl)]
  case h_6 rd rs1 imm =>
    refine h.assign rd ?_ h4
    rw [h.regs _ hi.2, h.load (hacc _ _ rfl)]
  case h_7 rs1 rs2 imm =>
    exact h.store _ (by rw [h.regs _ hi.1]) (h.regs _ hi.2) h4
  case h_8 rs1 rs2 imm =>
    exact h.store _ (by rw [h.regs _ hi.1]) (h.regs _ hi.2) h4
  case h_9 => exact hi.elim

theorem AgreeOn.aligned (h : AgreeOn cfg s s') (hi : Implemented i)
    (hacc : Nemu.AccessOk cfg s' i) (hal : AlignedOk s' i) : AlignedOk s i := by
  have hpc := (h.exec hi hacc).pc
  unfold Implemented at hi
  split at hi
  case h_4 rd rs1 imm =>
    simp only [AlignedOk] at hal ⊢
    rw [hpc]
    exact hal
  case h_5 rd rs1 imm =>
    simp only [AlignedOk] at hal ⊢
    rw [h.regs _ hi.2]
    exact hal
  case h_7 rs1 rs2 imm =>
    simp only [AlignedOk] at hal ⊢
    rw [h.regs _ hi.1]
    exact hal
  all_goals trivial

end Agree

/-- One `isa_exec_once` at `cpu.pc`, which then moves to `s->dnpc`. -/
def isaStep (cfg : Config) (m : Machine) : Except Nemu.Fault Machine := do
  let (s, m) ← Nemu.isaExecOnce cfg ⟨m.cpu.pc, m.cpu.pc, 0, 0⟩ m
  return { m with cpu := { m.cpu with pc := s.dnpc } }

def isaRun (cfg : Config) (m : Machine) : ℕ → Except Nemu.Fault Machine
  | 0 => .ok m
  | n + 1 => do isaStep cfg (← isaRun cfg m n)

/-- The machine is about to execute one of the implemented instructions, fetched
from and accessing flash or SRAM, aligned where it has to be. -/
structure Allowed (cfg : Config) (m : Machine) (i : Instr) : Prop where
  impl : Implemented i
  pcIn : InMem cfg m.cpu.pc 4
  fetch : loadLE m.mem.view m.cpu.pc 4 = i.encode
  access : Nemu.AccessOk cfg (m.arch m.cpu.pc) i
  aligned : AlignedOk (m.arch m.cpu.pc) i

/-- The same configuration with all 32 registers. -/
def wholeFile (cfg : Config) : Config := { cfg with RVE := false }

section Low

variable {cfg : Config} {m : Machine} {i : Instr}

theorem inMem_wholeFile {a : Word} {n : ℕ} (h : InMem cfg a n) : InMem (wholeFile cfg) a n :=
  h.imp_left fun h => ⟨h.base, h.window, h.array, h.pmem⟩

theorem rd_low (hi : Implemented i) (ht : Nemu.instType i ≠ .S) : (rd i.encode).toNat < 16 := by
  unfold Implemented at hi
  split at hi <;> simp_all [Nemu.instType, Instr.encode]

theorem rs1_low (hi : Implemented i) (ht : Nemu.instType i ≠ .U) : (rs1 i.encode).toNat < 16 := by
  unfold Implemented at hi
  split at hi <;> simp_all [Nemu.instType, Instr.encode]

theorem rs2_low (hi : Implemented i) (ht : Nemu.instType i = .R ∨ Nemu.instType i = .S) :
    (rs2 i.encode).toNat < 16 := by
  unfold Implemented at hi
  split at hi <;> simp_all [Nemu.instType, Instr.encode]

/-- Decoding an implemented instruction reads no register that `CONFIG_RVE` takes away. -/
theorem decodeOperand_low (hi : Implemented i) :
    Nemu.decodeOperand cfg m i.encode (Nemu.instType i) = .ok (Nemu.operands m i) := by
  have htype : Nemu.instType i = .R ∨ Nemu.instType i = .I ∨ Nemu.instType i = .S ∨
      Nemu.instType i = .U := by
    unfold Implemented at hi
    split at hi <;> simp_all [Nemu.instType]
  have h1 (ht : Nemu.instType i ≠ .U) : Nemu.gpr cfg m (i.encode.extractLsb' 15 5) = _ :=
    Nemu.gpr_low (rs1_low hi ht)
  have h2 (ht : Nemu.instType i = .R ∨ Nemu.instType i = .S) :
      Nemu.gpr cfg m (i.encode.extractLsb' 20 5) = _ := Nemu.gpr_low (rs2_low hi ht)
  simp only [Nemu.decodeOperand, Nemu.operands, Nemu.BITS_reg _ (show 19 - 15 + 1 = 5 by decide),
    Nemu.BITS_reg _ (show 24 - 20 + 1 = 5 by decide), Nemu.BITS_reg _ (show 11 - 7 + 1 = 5 by decide)]
  rcases htype with ht | ht | ht | ht
  · rw [h1 (by rw [ht]; decide), h2 (.inl ht), ht]
    rfl
  · rw [h1 (by rw [ht]; decide), ht]
    rfl
  · rw [h1 (by rw [ht]; decide), h2 (.inr ht), ht]
    rfl
  · rw [ht]
    rfl

theorem execBody_low (hi : Implemented i) (s : Nemu.Decode) :
    Nemu.execBody cfg m s (Nemu.operands m i) (Nemu.instName i) =
      Nemu.execBody (wholeFile cfg) m s (Nemu.operands m i) (Nemu.instName i) := by
  have hrd (cfg : Config) (ht : Nemu.instType i ≠ .S) (v : Word) :
      Nemu.setGpr cfg m (Nemu.operands m i).rd v = .ok (m.setGpr (Nemu.operands m i).rd v) := by
    have hop : (Nemu.operands m i).rd = rd i.encode := by
      rw [Nemu.operands]
      split <;> rfl
    exact Nemu.setGpr_low (hop ▸ rd_low hi ht) v
  unfold Implemented at hi
  split at hi
  case h_7 => rfl
  case h_8 => rfl
  case h_9 => exact hi.elim
  all_goals
    have hset (cfg : Config) := hrd cfg (by rw [Nemu.instType]; decide)
    simp only [Nemu.instName, Nemu.execBody, hset] <;> rfl

/-- An implemented instruction does the same with and without `CONFIG_RVE`. -/
theorem isaExecOnce_low {s : Nemu.Decode} (hi : Implemented i)
    (hfetch : Nemu.vaddrIfetch cfg m.mem s.snpc 4 = .ok i.encode) :
    Nemu.isaExecOnce cfg s m = Nemu.isaExecOnce (wholeFile cfg) s m := by
  obtain ⟨p, hp, hname, htype⟩ := Nemu.find_encode i
  have hfetch' : Nemu.vaddrIfetch (wholeFile cfg) m.mem s.snpc 4 = .ok i.encode := hfetch
  have hzero (cfg : Config) (m : Machine) : Nemu.setGpr cfg m 0 0 = .ok (m.setGpr 0 0) :=
    Nemu.setGpr_low (by decide) 0
  rw [Nemu.isaExecOnce_find hfetch hp, Nemu.isaExecOnce_find hfetch' hp, hname, htype]
  simp only [decodeOperand_low hi, bind, Except.bind, hzero]
  rw [execBody_low hi]

end Low

theorem isaStep_allowed {cfg : Config} {m : Machine} {i : Instr}
    (h0 : m.cpu.gpr 0 = 0) (h : Allowed cfg m i) :
    ∃ m', isaStep cfg m = .ok m' ∧ m'.arch m'.cpu.pc = i.exec (m.arch m.cpu.pc) ∧
      m'.cpu.gpr 0 = 0 := by
  have hshift : Nemu.ShiftInRange m i := by
    have hi := h.impl
    unfold Implemented at hi
    split at hi <;> trivial
  have hfetch : Nemu.vaddrIfetch cfg m.mem m.cpu.pc 4 = .ok i.encode := by
    rw [← h.fetch]
    exact Nemu.paddrRead_ok m.mem h.pcIn (by decide)
  have hmeets : Nemu.MeetsSpec (wholeFile cfg) ⟨m.cpu.pc, m.cpu.pc, 0, 0⟩ m i :=
    Nemu.meetsSpec_of_shiftInRange rfl rfl h0 hfetch
      (fun a n ha => inMem_wholeFile (h.access a n ha)) hshift
  obtain ⟨s', m', hexec, harch, -⟩ := hmeets
  rw [← isaExecOnce_low h.impl hfetch] at hexec
  have h0' : m'.cpu.gpr 0 = 0 := Nemu.isaExecOnce_gpr_zero hexec
  refine ⟨{ m' with cpu := { m'.cpu with pc := s'.dnpc } }, ?_, harch, h0'⟩
  rw [isaStep, hexec]
  rfl

/-- The core with its memory and the interpreter are between the same two instructions. -/
structure Agrees (cfg : Config) (s : Sys) (m : Machine) : Prop where
  boundary : Boundary s
  arch : AgreeOn cfg s.arch (m.arch m.cpu.pc)
  zero : m.cpu.gpr 0 = 0

/-- One instruction of the core is one step of the interpreter. -/
theorem Agrees.step {cfg : Config} {ch : ℕ → Choice} {sys : ℕ → Sys} {m : Machine} {i : Instr}
    {t : ℕ} (hrun : SysTrace ch sys) (h : Agrees cfg (sys t) m)
    (hal : Allowed cfg m i) :
    ∃ u ≥ t, Quiet sys t u ∧ (sys u).core.wbu.valid = true ∧
      ∃ m', isaStep cfg m = .ok m' ∧ Agrees cfg (sys (u + 1)) m' := by
  have hword : loadLE (sys t).mem (sys t).core.pc.pc 4 = i.encode := by
    rw [← hal.fetch]
    have hpc : (sys t).core.pc.pc = m.cpu.pc := h.arch.pc
    rw [hpc]
    exact h.arch.load hal.pcIn
  obtain ⟨u, htu, hq, hv, hb, hsame⟩ := execute_instr hrun h.boundary hword hal.impl
    (h.arch.aligned hal.impl hal.access hal.aligned)
  obtain ⟨m', hstep, harch, h0⟩ := isaStep_allowed h.zero hal
  refine ⟨u, htu, hq, hv, m', hstep, hb, ?_, h0⟩
  rw [harch]
  exact AgreeOn.of_same hsame (h.arch.exec hal.impl hal.access)

theorem PostReset.boundary {s : Sys} (h : PostReset s) :
    Boundary s ∧ s.core.pc.pc = 0x30000000 := by
  obtain ⟨c, i, hr, hc⟩ := h.core
  obtain ⟨hp, hpc⟩ := next_reset (c := c) hr
  rw [← hc] at hp hpc
  exact ⟨⟨hp, h.fetch, h.access, by rw [hpc]; decide⟩, hpc⟩

theorem Quiet.count {sys : ℕ → Sys} {t u : ℕ} (h : Quiet sys t u) (htu : t ≤ u) :
    Nat.count (fun v => (sys v).core.wbu.valid = true) u =
      Nat.count (fun v => (sys v).core.wbu.valid = true) t := by
  induction u, htu using Nat.le_induction with
  | base => rfl
  | succ u htu ih =>
    have hv := h u htu (Nat.lt_succ_self u)
    rw [Nat.count_succ, ih fun v hv hvu => h v hv (by omega), hv]
    simp

section Main

variable {cfg : Config} {ch : ℕ → Choice} {sys : ℕ → Sys} {m : Machine}

theorem isaRun_succ (n : ℕ) : isaRun cfg m (n + 1) = isaRun cfg m n >>= isaStep cfg := rfl

theorem isaRun_one : isaRun cfg m 1 = isaStep cfg m := rfl

/-- The first `n` instructions of the core are the first `n` steps of the interpreter. -/
theorem refines_run (hrun : SysTrace ch sys) (h : Agrees cfg (sys 0) m)
    (n : ℕ) (hprog : ∀ k < n, ∀ mk, isaRun cfg m k = .ok mk → ∃ i, Allowed cfg mk i) :
    ∃ t mn, Nat.count (fun u => (sys u).core.wbu.valid = true) t = n ∧
      isaRun cfg m n = .ok mn ∧ Agrees cfg (sys t) mn := by
  induction n with
  | zero => exact ⟨0, m, rfl, rfl, h⟩
  | succ n ih =>
    obtain ⟨t, mn, hcount, hmn, hag⟩ := ih fun k hk => hprog k (by omega)
    obtain ⟨i, hal⟩ := hprog n (Nat.lt_succ_self n) mn hmn
    obtain ⟨u, htu, hq, hv, m', hstep, hag'⟩ := hag.step hrun hal
    refine ⟨u + 1, m', ?_, ?_, hag'⟩
    · rw [Nat.count_succ, hq.count htu, hcount, if_pos hv]
    · rw [isaRun_succ, hmn]
      exact hstep

/-- After the cycle with the `n`-th `wbu_valid` the core and its memory hold the
state of the interpreter after `n + 1` steps. -/
theorem npc_refines_nemu (hrun : SysTrace ch sys)
    (hreset : PostReset (sys 0)) (hpc : m.cpu.pc = 0x30000000) (h0 : m.cpu.gpr 0 = 0)
    (hregs : ∀ r : Reg, r ≠ 0 → r.toNat < 16 →
      (sys 0).core.rf (r.extractLsb' 0 4) = m.cpu.gpr r)
    (hmem : ∀ a, InMem cfg a 1 → (sys 0).mem a = m.mem.view a) (n : ℕ)
    (hprog : ∀ k ≤ n, ∀ mk, isaRun cfg m k = .ok mk → ∃ i, Allowed cfg mk i) :
    ∃ t m', (sys t).core.wbu.valid = true ∧
      Nat.count (fun u => (sys u).core.wbu.valid = true) t = n ∧
      isaRun cfg m (n + 1) = .ok m' ∧
      AgreeOn cfg (sys (t + 1)).arch (m'.arch m'.cpu.pc) := by
  obtain ⟨hb, hpc'⟩ := hreset.boundary
  have hstart : Agrees cfg (sys 0) m := by
    refine ⟨hb, ⟨hpc'.trans hpc.symm, fun r hr => ?_, hmem⟩, h0⟩
    rw [Sys.arch, read_arch, Nemu.read_eq h0, RegisterFile.rdata]
    split_ifs with hr0
    · rw [hr0, h0]
    · exact hregs r hr0 hr
  obtain ⟨t, mn, hcount, hmn, hag⟩ := refines_run hrun hstart n fun k hk => hprog k (by omega)
  obtain ⟨i, hal⟩ := hprog n le_rfl mn hmn
  obtain ⟨u, htu, hq, hv, m', hstep, hag'⟩ := hag.step hrun hal
  refine ⟨u, m', hv, (hq.count htu).trans hcount, ?_, hag'.arch⟩
  rw [isaRun_succ, hmn]
  exact hstep

end Main

/-- A word is stored at the start of SRAM and loaded again. -/
def storeLoad : List Nemu.Insn := [.base (.store .sw 2 2 0), .base (.load .lw 1 2 0)]

def storeLoadStart : Machine :=
  { Nemu.startOf 0 0x0f000000 with mem := Nemu.imageOfCode storeLoad }

def storeLoadSys : Sys where
  core := Core.next
    { powerUp with wbu := ⟨.idle, false, false⟩, rf := Function.update 0 2 0x0f000000 }
    ⟨true, false, 0, 0, false⟩
  mem := (Nemu.imageOfCode storeLoad).view
  fetch := none
  access := none

/-- The memory takes three cycles for a fetch and two for an access. -/
def slowMemory : ℕ → Choice := fun _ => ⟨3, 2, 0, 0⟩

theorem storeLoad_word {k : ℕ} {i : Instr} (hi : storeLoad[k]? = some (.base i)) :
    loadLE (Nemu.imageOfCode storeLoad).view (slot 0x30000000 k) 4 = i.encode :=
  (Nemu.imageOfCode_placed (by decide) (by decide)).words k _ hi

theorem sramWord_inMem : InMem Nemu.defaultConfig 0x0f000000 4 := .inr ⟨by decide, by decide⟩

theorem allowed_store : Allowed Nemu.defaultConfig storeLoadStart (.store .sw 2 2 0) where
  impl := ⟨by decide, by decide⟩
  pcIn := .inl ⟨by decide, by decide, by decide, by decide⟩
  fetch := by
    have hword := storeLoad_word (k := 0) rfl
    rwa [slot_zero] at hword
  access _ _ h := by
    cases h
    exact sramWord_inMem
  aligned := rfl

theorem allowed_load {m : Machine} (hstep : isaStep Nemu.defaultConfig storeLoadStart = .ok m) :
    Allowed Nemu.defaultConfig m (.load .lw 1 2 0) := by
  obtain ⟨m', hm', harch, h0⟩ := isaStep_allowed rfl allowed_store
  cases hstep.symm.trans hm'
  have hpc : m.cpu.pc = 0x30000004 := congrArg State.pc harch
  have hbase : m.cpu.gpr 2 = 0x0f000000 := congrArg (fun s => s.x 2) harch
  have hmem : m.mem.view = storeLE (Nemu.imageOfCode storeLoad).view 0x0f000000 4 0x0f000000 :=
    congrArg State.mem harch
  have haddr : (m.arch m.cpu.pc).read 2 + (0 : BitVec 12).signExtend 32 = 0x0f000000 := by
    rw [Nemu.read_eq h0, hbase]
    rfl
  refine ⟨⟨by decide, by decide⟩, ?_, ?_, fun _ _ h => ?_, ?_⟩
  · rw [hpc]
    exact .inl ⟨by decide, by decide, by decide, by decide⟩
  · -- the store is in SRAM, and the code in flash
    have hcode := storeLoad_word (k := 1) rfl
    rw [hpc, hmem, ← hcode]
    refine loadLE_congr fun k hk => storeLE_out _ _ ?_
    interval_cases k <;> decide
  · cases h
    rw [haddr]
    exact sramWord_inMem
  · rw [AlignedOk, haddr]
    rfl

/-- `sw x2, 0(x2)` and `lw x1, 0(x2)` at the reset vector. -/
theorem npc_refines_nemu_store_load :
    ∃ t m',
      (traceFrom (fun ch s => s.next ch) slowMemory storeLoadSys t).core.wbu.valid = true ∧
      Nat.count (fun u =>
        (traceFrom (fun ch s => s.next ch) slowMemory storeLoadSys u).core.wbu.valid = true) t = 1 ∧
      isaRun Nemu.defaultConfig storeLoadStart 2 = .ok m' ∧
      AgreeOn Nemu.defaultConfig
        (traceFrom (fun ch s => s.next ch) slowMemory storeLoadSys (t + 1)).arch
        (m'.arch m'.cpu.pc) := by
  refine npc_refines_nemu (traceFrom_trace _ _ _)
    ⟨⟨_, ⟨true, false, 0, 0, false⟩, rfl, rfl⟩, rfl, rfl⟩ rfl rfl (by decide) (fun _ _ => rfl) 1 ?_
  intro k hk m hrun
  interval_cases k
  · cases hrun
    exact ⟨_, allowed_store⟩
  · rw [isaRun_one] at hrun
    exact ⟨_, allowed_load hrun⟩

end Ysyx.Npc
