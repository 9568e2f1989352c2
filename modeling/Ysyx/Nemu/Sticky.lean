import Ysyx.Nemu.GuestCode
import Ysyx.Nemu.WatchStep

/-! Terminal run states over whole debugger sessions. `cpu_exec` never leaves `NEMU_END`
or `NEMU_ABORT`, but two statements of an iteration that come after the one that ended
the run write `NEMU_STOP`: the test for `ebreak` and `wp_difftest`. -/

namespace Ysyx.Nemu

open Bytes Chain Rv32

def Terminal (s : NEMUState) : Prop := s.state = .END ∨ s.state = .ABORT

variable {ρ : Type}

def Sim.ns (σ : Sim ρ) : NEMUState := σ.m.nemuState

/-- No watched value of the state differs from the stored one. -/
def NothingNew (cfg : Config) (σ : Sim ρ) : Prop :=
  ∀ a, Linked σ.w.next σ.w.head a → ∀ p ∈ a, ∀ v b,
    evalWp cfg σ.m (σ.w.wp p).expr = .ok (v, b) → v = (σ.w.wp p).old

/-- The instruction is not `ebreak`, and no watched value is new if the run has ended by
the time `wp_difftest` is called. -/
structure KeepsTerminal (cfg : Config) (it : IterStates ρ) : Prop where
  word : it.s.inst ≠ EBREAK
  watch : cfg.WATCHPOINT = true → Terminal it.diffed.ns → NothingNew cfg it.diffed

/-- Once a statement has ended the run, the later ones of the iteration keep the state. -/
structure StickyIter (it : IterStates ρ) : Prop where
  tested : Terminal it.exec.ns → it.tested.ns = it.exec.ns
  diffed : Terminal it.tested.ns → it.diffed.ns = it.tested.ns
  watched : Terminal it.diffed.ns → it.watched.ns = it.diffed.ns

/-- An iteration that ends the run is the last one, and its state is the final one. -/
def StaysTerminal (its : List (IterStates ρ)) (σ : Sim ρ) : Prop :=
  ∀ l it r, its = l ++ it :: r →
    StickyIter it ∧ (Terminal it.watched.ns → r = [] ∧ σ.ns = it.watched.ns)

section Iter

variable {cfg : Config} {R : RefModel ρ} {it : IterStates ρ}

/-- `ebreak` in a running machine: `NEMU_END`, and `NEMU_STOP` at once. -/
theorem IsIteration.ebreak (h : IsIteration cfg R it) (hword : it.s.inst = EBREAK) :
    Terminal it.exec.ns ∧ it.tested.ns.state = .STOP := by
  obtain ⟨m, hexec, hm⟩ := h.exec
  have hstop : it.tested.ns.state = .STOP := by
    rw [Sim.ns, h.tested, afterIsaExec, if_pos hword]
    rfl
  refine ⟨?_, hstop⟩
  rcases (isaExecOnce_effect hexec).1 with ⟨hne, -⟩ | ⟨-, code, -, hrun⟩ | ⟨hne, -⟩
  · exact absurd hword hne
  · left
    rw [Sim.ns, hm, hrun.nemuState]
    rfl
  · exact absurd hword hne

theorem IsIteration.tested_ns (h : IsIteration cfg R it) (hword : it.s.inst ≠ EBREAK) :
    SameRun it.exec.m it.tested.m := by
  rw [h.tested, afterIsaExec, if_neg hword]
  exact ⟨rfl, rfl, rfl⟩

/-- An instruction that ends the run makes `difftest_step` copy the registers. -/
theorem IsIteration.skips (h : IsIteration cfg R it) (hrun : it.start.ns.state = .RUNNING)
    (hword : it.s.inst ≠ EBREAK) (hdiff : cfg.DIFFTEST = true) (hend : Terminal it.exec.ns) :
    it.tested.m.isSkipRef = true ∧ it.tested.m.skipDutNrInst = 0 := by
  obtain ⟨m, hexec, hm⟩ := h.exec
  have hsame := h.tested_ns hword
  rw [hsame.isSkipRef, hsame.skipDutNrInst, hm]
  rw [Sim.ns, hm] at hend
  rcases (isaExecOnce_effect hexec).1 with ⟨-, hquiet⟩ | ⟨he, -⟩ | ⟨-, hinv⟩
  · have hns : m.nemuState.state = .RUNNING := by
      rw [hquiet.nemuState]
      exact hrun
    rcases hend with he | he <;> cases hns.symm.trans he
  · exact absurd he hword
  · rw [hinv.isSkipRef, hinv.skipDutNrInst, setNemuState, difftestSkipRef, if_pos hdiff]
    exact ⟨rfl, rfl⟩

theorem difftestHook_skip {s : Decode} {d : Word} {σ σ' : Sim ρ}
    (h : difftestHook cfg R s d σ = .ok σ')
    (hskip : cfg.DIFFTEST = true → σ.m.isSkipRef = true ∧ σ.m.skipDutNrInst = 0) :
    σ'.ns = σ.ns := by
  unfold difftestHook at h
  split_ifs at h with hdiff
  · obtain ⟨hs, hd⟩ := hskip hdiff
    have hstep : difftestStep cfg R σ.m σ.ref s.pc d =
        .ok ({ σ.m with isSkipRef := false }, R.setRegs σ.m.cpu σ.ref) := by
      rw [difftestStep, if_neg (by omega), if_pos hs]
    rw [hstep] at h
    cases h
    rfl
  · cases h
    rfl

theorem watchHook_ns {σ σ' : Sim ρ} (h : watchHook cfg σ = .ok σ') :
    (cfg.WATCHPOINT = true → NothingNew cfg σ) ∧ σ'.ns = σ.ns ∨
      cfg.WATCHPOINT = true ∧ ¬ NothingNew cfg σ ∧ σ'.ns.state = .STOP := by
  unfold watchHook at h
  split_ifs at h with hwp
  · obtain ⟨⟨m', w', out⟩, hd, h⟩ := bind_eq_ok.mp h
    cases h
    obtain ⟨a, ha, hpass⟩ := wpDifftest_pass (ofWp_eq_ok.mp hd)
    by_cases hout : out = []
    · refine .inl ⟨fun _ a' ha' p hp v b hv => ?_, ?_⟩
      · rw [ha'.unique ha] at hp
        obtain ⟨b', hb'⟩ := hpass.value p hp
        cases hb'.symm.trans hv
        exact (hpass.out_eq_nil_iff.mp hout p hp).symm
      · rw [Sim.ns, hpass.state, stopIf, if_pos hout]
        rfl
    · refine .inr ⟨hwp, fun hnew => hout ?_, ?_⟩
      · refine hpass.out_eq_nil_iff.mpr fun p hp => ?_
        obtain ⟨b, hb⟩ := hpass.value p hp
        exact (hnew a ha p hp _ b hb).symm
      · rw [Sim.ns, hpass.state, stopIf, if_neg hout]
        rfl
  · cases h
    exact .inl ⟨fun hc => absurd hc hwp, rfl⟩

/-- In a running machine an iteration keeps terminal states exactly under the condition. -/
theorem stickyIter_iff (h : IsIteration cfg R it) (hrun : it.start.ns.state = .RUNNING) :
    StickyIter it ↔ KeepsTerminal cfg it := by
  constructor
  · intro hs
    have hword : it.s.inst ≠ EBREAK := by
      intro hword
      obtain ⟨hend, hstop⟩ := h.ebreak hword
      rw [hs.tested hend] at hstop
      rcases hend with he | he <;> cases hstop.symm.trans he
    refine ⟨hword, fun hwp hend => ?_⟩
    rcases watchHook_ns h.watched with ⟨hnew, -⟩ | ⟨-, -, hstop⟩
    · exact hnew hwp
    · rw [hs.watched hend] at hstop
      rcases hend with he | he <;> cases hstop.symm.trans he
  · intro hk
    have hsame := (h.tested_ns hk.word).nemuState
    refine ⟨fun _ => hsame, fun hend => ?_, fun hend => ?_⟩
    · refine difftestHook_skip h.diffed fun hdiff => h.skips hrun hk.word hdiff ?_
      rw [Sim.ns, hsame] at hend
      exact hend
    · rcases watchHook_ns h.watched with ⟨-, hns⟩ | ⟨hwp, hnew, -⟩
      · exact hns
      · exact absurd (hk.watch hwp hend) hnew

end Iter

section Runs

variable {cfg : Config} {R : RefModel ρ} {σ₀ σ σ' : Sim ρ} {its : List (IterStates ρ)}

/-- Every iteration of the loop is an iteration, and starts in a running machine. -/
theorem Executes.isIteration {n : ℕ} (run : Executes cfg R n σ its σ')
    (hσ : σ.ns.state = .RUNNING) :
    ∀ it ∈ its, IsIteration cfg R it ∧ it.start.ns.state = .RUNNING := by
  induction run with
  | done σ => exact fun it hit => (List.not_mem_nil hit).elim
  | stop it h hs =>
    intro it' hit
    rw [List.mem_singleton] at hit
    subst hit
    exact ⟨h, hσ⟩
  | next it h hs rest ih =>
    intro it' hit
    rcases List.mem_cons.mp hit with rfl | hit
    · exact ⟨h, hσ⟩
    · exact ih hs it' hit

/-- The loop ends with an iteration that is no longer running. -/
theorem Executes.last {n : ℕ} (run : Executes cfg R n σ its σ') {l r : List (IterStates ρ)}
    {it : IterStates ρ} (hits : its = l ++ it :: r) (hit : it.watched.ns.state ≠ .RUNNING) :
    r = [] ∧ σ' = it.watched := by
  induction run generalizing l with
  | done σ => exact absurd hits.symm (by simp)
  | stop it' h hs =>
    cases l with
    | nil =>
      cases hits
      exact ⟨rfl, rfl⟩
    | cons x l => simp at hits
  | next it' h hs rest ih =>
    cases l with
    | nil =>
      cases hits
      exact absurd hs hit
    | cons x l =>
      obtain ⟨-, hits⟩ := List.cons.inj hits
      exact ih hits

theorem afterExecute_of_running (h : σ.ns.state = .RUNNING) :
    afterExecute σ = σ.setState .STOP := if_pos h

theorem afterExecute_of_ne (h : σ.ns.state ≠ .RUNNING) : afterExecute σ = σ := if_neg h

/-- Every iteration of a session starts in a running machine, and none follows one that
ended the run. -/
theorem Session.iterations (run : Session cfg R σ₀ its σ) :
    (∀ it ∈ its, IsIteration cfg R it ∧ it.start.ns.state = .RUNNING) ∧
      ∀ l it r, its = l ++ it :: r → Terminal it.watched.ns → r = [] ∧ σ.ns = it.watched.ns := by
  induction run with
  | nil =>
    refine ⟨fun it hit => (List.not_mem_nil hit).elim, fun l it r hits => ?_⟩
    exact absurd hits.symm (by simp)
  | snoc run _ trace ih =>
    cases trace with
    | ended h =>
      rw [List.append_nil]
      exact ih
    | pool w =>
      rw [List.append_nil]
      exact ih
    | ran h hexec =>
      refine ⟨fun it hit => ?_, fun l it r hits hend => ?_⟩
      · rcases List.mem_append.mp hit with hit | hit
        · exact ih.1 it hit
        · exact hexec.isIteration rfl it hit
      have hne : it.watched.ns.state ≠ .RUNNING := by
        intro hrun
        rcases hend with he | he <;> cases hrun.symm.trans he
      rcases List.append_eq_append_iff.mp hits with ⟨l', -, hl'⟩ | ⟨c, hl, hc⟩
      · obtain ⟨hr, hlast⟩ := hexec.last hl' hne
        refine ⟨hr, ?_⟩
        subst hlast
        rw [afterExecute_of_ne hne]
      · cases c with
        | nil =>
          rw [List.nil_append] at hc
          obtain ⟨hr, hlast⟩ := hexec.last (l := []) hc.symm hne
          refine ⟨hr, ?_⟩
          subst hlast
          rw [afterExecute_of_ne hne]
        | cons x c =>
          -- an earlier command ended the run, so this one has not run
          obtain ⟨rfl, -⟩ := List.cons.inj hc
          obtain ⟨-, hns⟩ := ih.2 l it c hl hend
          rw [← hns] at hend
          exact absurd hend h

/-- In every session terminal states are kept exactly when no `ebreak` is executed and no
watched value is new where an iteration has ended the run; the exit status is as specified. -/
theorem session_staysTerminal_iff (run : Session cfg R σ₀ its σ) :
    (StaysTerminal its σ ↔ ∀ it ∈ its, KeepsTerminal cfg it) ∧
      (isExitStatusBad σ.ns = false ↔
        (σ.ns.state = .END ∧ σ.ns.haltRet = 0) ∨ σ.ns.state = .QUIT) := by
  obtain ⟨hiter, hlast⟩ := run.iterations
  refine ⟨⟨fun h it hit => ?_, fun h l it r hits => ⟨?_, hlast l it r hits⟩⟩, ?_⟩
  · obtain ⟨l, r, hits⟩ := List.append_of_mem hit
    exact (stickyIter_iff (hiter it hit).1 (hiter it hit).2).mp (h l it r hits).1
  · have hit : it ∈ its := by
      rw [hits]
      exact List.mem_append_right l List.mem_cons_self
    exact (stickyIter_iff (hiter it hit).1 (hiter it hit).2).mpr (h it hit)
  · simp only [isExitStatusBad, Bool.not_eq_false', Bool.or_eq_true, Bool.and_eq_true, beq_iff_eq]

end Runs

theorem isaExecOnce_ebreak {cfg : Config} {s : Decode} {m : Machine}
    (hfetch : vaddrIfetch cfg m.mem s.snpc 4 = .ok EBREAK) :
    isaExecOnce cfg s m =
      .ok ({ s with inst := EBREAK, snpc := s.snpc + 4, dnpc := s.snpc + 4 },
        (setNemuState cfg m .END s.pc (m.cpu.gpr 10)).setGpr 0 0) := by
  obtain ⟨p, hp, hname, htype⟩ := find_ebreak
  have ha0 : gpr cfg m 10 = .ok (m.cpu.gpr 10) := gpr_low (by decide)
  have hzero : ∀ m : Machine, setGpr cfg m 0 0 = .ok (m.setGpr 0 0) := fun m =>
    setGpr_low (by decide) 0
  rw [isaExecOnce_find hfetch hp, hname, htype]
  simp only [decodeOperand, bind, Except.bind, pure, Except.pure, execBody, ha0, hzero]

theorem isaExecOnce_addi {cfg : Config} {s : Decode} {m : Machine} (hrve : cfg.RVE = false)
    (rd rs1 : Reg) (imm : BitVec 12)
    (hfetch : vaddrIfetch cfg m.mem s.snpc 4 = .ok (Instr.opImm .addi rd rs1 imm).encode) :
    isaExecOnce cfg s m = .ok (fetched s (.opImm .addi rd rs1 imm),
      (m.setGpr rd (m.cpu.gpr rs1 + imm.signExtend 32)).setGpr 0 0) := by
  rw [isaExecOnce_encode hrve _ hfetch, operands_opImm]
  simp only [instName, execBody, setGpr_ok hrve, bind, Except.bind]
  rfl

def noRef : RefModel Unit := ⟨id, fun _ => ⟨fun _ => 0, 0, ⟨0, 0, 0, 0⟩⟩, fun _ => id⟩

def ebreakSim : Sim Unit :=
  ⟨(startOf EBREAK 0).stop, ⟨fun _ => ⟨0, none, [], 0⟩, none, none⟩, (), 0, []⟩

def ebreakIter : IterStates Unit :=
  let start := ebreakSim.setState .RUNNING
  let exec := { start with
    m := (setNemuState defaultConfig (startOf EBREAK 0) .END 0x30000000 0).setGpr 0 0 }
  let tested := { exec with m := exec.m.stop, nrGuestInst := 1 }
  { s := ⟨0x30000000, 0x30000004, 0x30000004, EBREAK⟩
    start := start, exec := exec, tested := tested, diffed := tested, watched := tested }

theorem isIteration_ebreakIter : IsIteration defaultConfig noRef ebreakIter where
  exec := ⟨_, isaExecOnce_ebreak (imageOf_fetch EBREAK 0), rfl⟩
  tested := rfl
  diffed := rfl
  watched := rfl

theorem session_ebreak : Session defaultConfig noRef ebreakSim [ebreakIter] ebreakIter.watched := by
  have hexec : Executes defaultConfig noRef 1 (ebreakSim.setState .RUNNING) [ebreakIter]
      ebreakIter.watched :=
    .stop ebreakIter isIteration_ebreakIter (by decide)
  have hend : ¬ (ebreakSim.m.nemuState.state = .END ∨ ebreakSim.m.nemuState.state = .ABORT) := by
    decide
  have hcmd : runCmd defaultConfig noRef (.si 1) ebreakSim = .ok ebreakIter.watched := by
    have hn : ((1 : BitVec 32).signExtend 64).toNat = 1 := by decide
    rw [runCmd, cpuExec_eq hend, hn, execute_eq_ok.mpr ⟨_, hexec⟩]
    rfl
  exact (Session.nil ebreakSim).snoc hcmd (.ran hend hexec)

theorem session_staysTerminal_iff_ebreak :
    (StaysTerminal [ebreakIter] ebreakIter.watched ↔
      ∀ it ∈ [ebreakIter], KeepsTerminal defaultConfig it) ∧
      (isExitStatusBad ebreakIter.watched.ns = false ↔
        (ebreakIter.watched.ns.state = .END ∧ ebreakIter.watched.ns.haltRet = 0) ∨
          ebreakIter.watched.ns.state = .QUIT) :=
  session_staysTerminal_iff session_ebreak

/-- The `ebreak` that ends a program with `a0 = 0` leaves `NEMU_STOP`. -/
theorem ebreak_stops_fails :
    ¬ ∀ (cfg : Config) (R : RefModel Unit) (σ₀ σ : Sim Unit) (its : List (IterStates Unit)),
      Session cfg R σ₀ its σ → StaysTerminal its σ := by
  intro h
  obtain ⟨hiter, -⟩ := h _ _ _ _ _ session_ebreak [] ebreakIter [] rfl
  have hend : Terminal ebreakIter.exec.ns := .inl rfl
  have hstop : ebreakIter.tested.ns.state = .STOP := rfl
  rw [hiter.tested hend] at hstop
  cases hstop

/-- The emulator at its prompt, with code at the reset vector. -/
def codeSim (code : List Insn) : Sim Unit :=
  { ebreakSim with m := { ebreakSim.m with mem := imageOfCode code } }

/-- The iteration of an `addi` from `x0`, when nothing is watched. -/
def addiIter (start : Sim Unit) (rd : Reg) (imm : BitVec 12) : IterStates Unit :=
  let pc := start.m.cpu.pc
  let exec := { start with
    m := (start.m.setGpr rd (start.m.cpu.gpr 0 + imm.signExtend 32)).setGpr 0 0 }
  let tested := { exec with
    m := { exec.m with cpu := { exec.m.cpu with pc := pc + 4 } }
    nrGuestInst := start.nrGuestInst + 1 }
  { s := ⟨pc, pc + 4, pc + 4, (Instr.opImm .addi rd 0 imm).encode⟩
    start := start, exec := exec, tested := tested, diffed := tested, watched := tested }

theorem isIteration_addi {cfg : Config} {start σ : Sim Unit} {rd : Reg} {imm : BitVec 12}
    (hrve : cfg.RVE = false) (hd : cfg.DIFFTEST = false)
    (hfetch : vaddrIfetch cfg start.m.mem start.m.cpu.pc 4 =
      .ok (Instr.opImm .addi rd 0 imm).encode)
    (hwatch : watchHook cfg (addiIter start rd imm).tested = .ok σ) :
    IsIteration cfg noRef { addiIter start rd imm with watched := σ } where
  exec := ⟨_, isaExecOnce_addi hrve rd 0 imm hfetch, rfl⟩
  tested := by
    have hne : (Instr.opImm .addi rd 0 imm).encode ≠ EBREAK :=
      Insn.encode_ne_ebreak (.base (.opImm .addi rd 0 imm))
    have hafter : afterIsaExec (addiIter start rd imm).s (addiIter start rd imm).exec.m =
        (addiIter start rd imm).tested.m := if_neg hne
    dsimp only
    rw [hafter]
    rfl
  diffed := by
    rw [difftestHook, hd]
    rfl
  watched := hwatch

def twoAddi : List Insn := [.base (.opImm .addi 3 0 1), .base (.opImm .addi 1 0 5)]

def firstAddi (σ : Sim Unit) : IterStates Unit := addiIter (σ.setState .RUNNING) 3 1

def secondAddi (σ : Sim Unit) : IterStates Unit := addiIter (firstAddi σ).watched 1 5

theorem twoAddi_fetch {m : Machine} {k : ℕ} {i : Instr} (hmem : m.mem = imageOfCode twoAddi)
    (hpc : m.cpu.pc = slot 0x30000000 k) (hi : twoAddi[k]? = some (.base i)) :
    vaddrIfetch defaultConfig m.mem m.cpu.pc 4 = .ok i.encode := by
  have hplaced : Placed defaultConfig 0x30000000 twoAddi m.mem.view := by
    rw [hmem]
    exact imageOfCode_placed (by decide) (by decide)
  exact hplaced.fetch hpc hi

end Ysyx.Nemu
