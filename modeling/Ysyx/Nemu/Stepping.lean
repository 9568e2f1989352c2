import Ysyx.Nemu.Sticky

/-! Stepping in one go or in two, with `CONFIG_DIFFTEST` and `CONFIG_WATCHPOINT` off. A run of the
loop ends running, at an `ebreak` that would stop it again at once, or aborted. -/

namespace Ysyx.Nemu

open Bytes

variable {ρ : Type} {cfg : Config} {R : RefModel ρ}

/-- What the guest can see: the registers, the CSRs, the pc and the memory. -/
def Sim.arch (σ : Sim ρ) : CPUState × Mem := (σ.m.cpu, σ.m.mem)

/-- No entry of the table but the last hits the word. -/
def Invalid (w : Word) : Prop := ∃ p, instpats.find? (·.hits w) = some p ∧ p.name = .inv

/-- The instruction of the iteration is `ebreak` or an invalid one. -/
def IterStates.Halts (it : IterStates ρ) : Prop := it.s.inst = EBREAK ∨ Invalid it.s.inst

/-- The next instruction is `ebreak`, and the register it resets is zero already. -/
structure AtEbreak (cfg : Config) (m : Machine) : Prop where
  fetch : vaddrIfetch cfg m.mem m.cpu.pc 4 = .ok EBREAK
  zero : m.cpu.gpr 0 = 0

/-- Every other instruction leaves the run state alone. -/
theorem isaExecOnce_quiet {s s' : Decode} {m m' : Machine}
    (h : isaExecOnce cfg s m = .ok (s', m')) (he : s'.inst ≠ EBREAK) (hi : ¬ Invalid s'.inst) :
    SameRun m m' := by
  obtain ⟨inst, -, h⟩ := bind_eq_ok.mp h
  obtain ⟨p, hp⟩ := find_some inst
  simp only [decodeExec, hp] at h
  obtain ⟨o, -, h⟩ := bind_eq_ok.mp h
  obtain ⟨⟨m₁, d⟩, hbody, h⟩ := bind_eq_ok.mp h
  obtain ⟨m₂, hset, h⟩ := bind_eq_ok.mp h
  cases h
  have hebreak : p.name ≠ .ebreak := fun hname => he (eq_ebreak_of_find hp hname)
  have hinv : p.name ≠ .inv := fun hname => hi ⟨p, hp, hname⟩
  exact (sameRun_execBody hebreak hinv hbody).trans (sameRun_setGpr hset)

/-- `ebreak` leaves the guest where it is, but for the reset of `R(0)`. -/
theorem isaExecOnce_of_ebreak {pc : Word} {s' : Decode} {m m' : Machine}
    (h : isaExecOnce cfg ⟨pc, pc, 0, 0⟩ m = .ok (s', m')) (he : s'.inst = EBREAK) :
    vaddrIfetch cfg m.mem pc 4 = .ok EBREAK ∧ m'.cpu = (m.setGpr 0 0).cpu ∧ m'.mem = m.mem := by
  obtain ⟨inst, hfetch, h'⟩ := bind_eq_ok.mp h
  obtain ⟨p, hp⟩ := find_some inst
  simp only [decodeExec, hp] at h'
  obtain ⟨o, -, h'⟩ := bind_eq_ok.mp h'
  obtain ⟨⟨m₁, d⟩, -, h'⟩ := bind_eq_ok.mp h'
  obtain ⟨m₂, -, h'⟩ := bind_eq_ok.mp h'
  cases h'
  obtain rfl : inst = EBREAK := he
  refine ⟨hfetch, ?_⟩
  rw [isaExecOnce_ebreak hfetch] at h
  cases h
  rw [setNemuState, difftestSkipRef]
  split_ifs <;> exact ⟨rfl, rfl⟩

section Iter

variable {it : IterStates ρ}

theorem IsIteration.off (h : IsIteration cfg R it) (hd : cfg.DIFFTEST = false)
    (hw : cfg.WATCHPOINT = false) : it.watched = it.tested := by
  have hdiff := h.diffed
  have hwatch := h.watched
  rw [difftestHook, hd] at hdiff
  rw [watchHook, hw] at hwatch
  have h1 : it.tested = it.diffed := Except.ok.inj hdiff
  have h2 : it.diffed = it.watched := Except.ok.inj hwatch
  rw [h1, h2]

/-- After an instruction that does not halt the machine runs on, one instruction further. -/
theorem IsIteration.quiet (h : IsIteration cfg R it) (hd : cfg.DIFFTEST = false)
    (hw : cfg.WATCHPOINT = false) (hhalt : ¬ it.Halts) :
    it.watched.ns = it.start.ns ∧ it.watched.nrGuestInst = it.start.nrGuestInst + 1 := by
  obtain ⟨he, hi⟩ := not_or.1 hhalt
  obtain ⟨m, hexec, hm⟩ := h.exec
  have hquiet := isaExecOnce_quiet hexec he hi
  rw [h.off hd hw]
  refine ⟨?_, ?_⟩
  · rw [Sim.ns, (h.tested_ns he).nemuState, hm, hquiet.nemuState, Sim.ns]
  · rw [h.tested, hm]

/-- After an iteration the machine runs, has stopped at an `ebreak`, or is aborted. -/
theorem IsIteration.outcome (h : IsIteration cfg R it) (hd : cfg.DIFFTEST = false)
    (hw : cfg.WATCHPOINT = false) (hrun : it.start.ns.state = .RUNNING) :
    it.watched.ns.state = .RUNNING ∨
      it.watched.ns.state = .STOP ∧ AtEbreak cfg it.watched.m ∨ it.watched.ns.state = .ABORT := by
  obtain ⟨m, hexec, hm⟩ := h.exec
  rw [h.off hd hw]
  by_cases he : it.s.inst = EBREAK
  · obtain ⟨hfetch, hcpu, hmem⟩ := isaExecOnce_of_ebreak hexec he
    refine .inr (.inl ⟨(h.ebreak he).2, ?_⟩)
    have hpc : m.cpu.pc = it.start.m.cpu.pc := by rw [hcpu, setGpr_pc]
    rw [h.tested, hm, afterIsaExec, if_pos he]
    refine ⟨?_, ?_⟩
    · simpa only [Machine.stop, hpc, hmem] using hfetch
    · simp only [Machine.stop, hcpu, setGpr_gpr, Function.update_self]
  · rw [Sim.ns, (h.tested_ns he).nemuState, hm]
    rcases (isaExecOnce_effect hexec).1 with ⟨-, hquiet⟩ | ⟨hword, -⟩ | ⟨-, habort⟩
    · exact .inl (by rw [hquiet.nemuState]; exact hrun)
    · exact absurd hword he
    · exact .inr (.inr (by rw [habort.nemuState]; rfl))

end Iter

/-- At an `ebreak` an iteration stops the machine and changes nothing the guest can see. -/
theorem iteration_atEbreak (hd : cfg.DIFFTEST = false) (hw : cfg.WATCHPOINT = false) {σ : Sim ρ}
    (h : AtEbreak cfg σ.m) :
    ∃ σ', iteration cfg R σ = .ok σ' ∧ σ'.arch = σ.arch ∧ σ'.ns.state = .STOP := by
  have hcpu : (σ.m.setGpr 0 0).cpu = σ.m.cpu := by rw [setGpr_zero_self h.zero]
  have hexec : execOnce cfg σ.m σ.m.cpu.pc = .ok (⟨σ.m.cpu.pc, σ.m.cpu.pc + 4, σ.m.cpu.pc + 4, EBREAK⟩,
      ((setNemuState cfg σ.m .END σ.m.cpu.pc (σ.m.cpu.gpr 10)).setGpr 0 0).stop) := by
    rw [execOnce, isaExecOnce_ebreak h.fetch]
    rfl
  refine ⟨{ σ with m := ((setNemuState cfg σ.m .END σ.m.cpu.pc (σ.m.cpu.gpr 10)).setGpr 0 0).stop,
                   nrGuestInst := σ.nrGuestInst + 1 }, ?_, ?_, rfl⟩
  · rw [iteration, hexec]
    simp only [ofCpu, bind, Except.bind, traceAndDifftest, difftestHook, watchHook, hd, hw]
    rfl
  · rw [Sim.arch, setNemuState, difftestSkipRef, hd]
    exact Prod.ext hcpu rfl

section Runs

variable {n : ℕ} {σ τ : Sim ρ} {its : List (IterStates ρ)}

theorem Executes.outcome (run : Executes cfg R n σ its τ) (hd : cfg.DIFFTEST = false)
    (hw : cfg.WATCHPOINT = false) (hrun : σ.ns.state = .RUNNING) :
    τ.ns.state = .RUNNING ∨ τ.ns.state = .STOP ∧ AtEbreak cfg τ.m ∨ τ.ns.state = .ABORT := by
  induction run with
  | done => exact .inl hrun
  | stop it h _ => exact h.outcome hd hw hrun
  | next it h hs _ ih => exact ih hs

/-- A run that meets no `ebreak` and no invalid instruction makes all its steps. -/
theorem Executes.counts (run : Executes cfg R n σ its τ) (hd : cfg.DIFFTEST = false)
    (hw : cfg.WATCHPOINT = false) (hrun : σ.ns.state = .RUNNING)
    (hhalt : ∀ it ∈ its, ¬ it.Halts) :
    τ.ns.state = .RUNNING ∧ τ.nrGuestInst = σ.nrGuestInst + BitVec.ofNat 64 n := by
  induction run with
  | done => exact ⟨hrun, by simp⟩
  | stop it h hs =>
    have hq := (h.quiet hd hw (hhalt it (by simp))).1
    exact absurd (by rw [← hrun, ← hq]; rfl) hs
  | @next n its σ it h hs _ ih =>
    obtain ⟨hτ, hcount⟩ := ih hs fun it' hit => hhalt it' (List.mem_cons_of_mem it hit)
    refine ⟨hτ, ?_⟩
    rw [hcount, (h.quiet hd hw (hhalt it (by simp))).2, add_assoc, add_comm 1, BitVec.ofNat_add]
    rfl

/-- The loop over `m + k` steps is that over `m` steps, and over `k` more if it is not over. -/
theorem execute_add (m k : ℕ) (hrun : σ.ns.state = .RUNNING) :
    execute cfg R (m + k) σ = (execute cfg R m σ >>= fun τ =>
      if τ.ns.state = .RUNNING then execute cfg R k τ else .ok τ) := by
  induction m generalizing σ with
  | zero => rw [Nat.zero_add, execute]; exact (if_pos hrun).symm
  | succ m ih =>
    rw [Nat.succ_add, execute, execute, bind_assoc]
    congr 1
    funext τ
    by_cases hτ : τ.m.nemuState.state ≠ .RUNNING
    · rw [if_pos hτ, if_pos hτ]
      exact (if_neg hτ).symm
    · rw [if_neg hτ, if_neg hτ]
      exact ih (not_not.1 hτ)

/-- Any number of steps from an `ebreak` change nothing. -/
theorem execute_atEbreak (hd : cfg.DIFFTEST = false) (hw : cfg.WATCHPOINT = false)
    (h : AtEbreak cfg σ.m) (k : ℕ) :
    ∃ τ, execute cfg R k σ = .ok τ ∧ τ.arch = σ.arch := by
  cases k with
  | zero => exact ⟨σ, rfl, rfl⟩
  | succ k =>
    obtain ⟨τ, hiter, harch, hstop⟩ := iteration_atEbreak (R := R) hd hw h
    refine ⟨τ, ?_, harch⟩
    rw [execute, hiter]
    exact if_pos (by rw [← Sim.ns, hstop]; decide)

end Runs

section Calls

variable {σ τ : Sim ρ}

theorem cpuExec_ended {n : BitVec 64} (h : σ.ns.state = .END ∨ σ.ns.state = .ABORT) :
    cpuExec cfg R n σ = .ok σ := by
  rw [Sim.ns] at h
  rcases h with h | h <;> simp only [cpuExec, h]

theorem arch_afterExecute (τ : Sim ρ) : (afterExecute τ).arch = τ.arch := by
  rw [afterExecute]
  split_ifs <;> rfl

/-- After a run that is not over, `cpu_exec` resumes it. -/
theorem cpuExec_resume (n : BitVec 64) (h : τ.ns.state = .RUNNING) :
    cpuExec cfg R n (τ.setState .STOP) =
      (do return afterExecute (← execute cfg R n.toNat τ)) := by
  have hstate : (τ.setState .STOP).setState .RUNNING = τ := by
    rw [Sim.ns] at h
    rw [Sim.setState, Sim.setState]
    simp only [← h]
  rw [cpuExec_eq (by simp [Sim.setState]), hstate]

/-- After one that is over, `cpu_exec` changes nothing the guest can see. -/
theorem cpuExec_over (hd : cfg.DIFFTEST = false) (hw : cfg.WATCHPOINT = false) (n : BitVec 64)
    (h : τ.ns.state = .STOP ∧ AtEbreak cfg τ.m ∨ τ.ns.state = .ABORT) :
    ∃ τ', cpuExec cfg R n τ = .ok τ' ∧ τ'.arch = τ.arch := by
  rcases h with ⟨hstop, hebreak⟩ | habort
  · have hend : ¬ (τ.m.nemuState.state = .END ∨ τ.m.nemuState.state = .ABORT) := by
      rw [← Sim.ns, hstop]
      decide
    obtain ⟨τ', hexec, harch⟩ :=
      execute_atEbreak (R := R) hd hw (σ := τ.setState .RUNNING) ⟨hebreak.fetch, hebreak.zero⟩ n.toNat
    refine ⟨afterExecute τ', ?_, (arch_afterExecute τ').trans harch⟩
    rw [cpuExec_eq hend, hexec]
    rfl
  · exact ⟨τ, cpuExec_ended (.inr habort), rfl⟩

/-- Two calls of `cpu_exec` leave what one call with the sum of their steps leaves. -/
theorem cpuExec_add (hd : cfg.DIFFTEST = false) (hw : cfg.WATCHPOINT = false) (σ : Sim ρ)
    {m k : BitVec 64} (hmk : m.toNat + k.toNat < 2 ^ 64) :
    (cpuExec cfg R m σ >>= cpuExec cfg R k).map Sim.arch =
      (cpuExec cfg R (m + k) σ).map Sim.arch := by
  by_cases hend : σ.m.nemuState.state = .END ∨ σ.m.nemuState.state = .ABORT
  · rw [cpuExec_ended hend, cpuExec_ended hend]
    change (cpuExec cfg R k σ).map _ = _
    rw [cpuExec_ended hend]
  · have hsum : (m + k).toNat = m.toNat + k.toNat := by
      rw [BitVec.toNat_add, Nat.mod_eq_of_lt hmk]
    have hrun : (σ.setState .RUNNING).ns.state = .RUNNING := rfl
    rw [cpuExec_eq hend, cpuExec_eq hend, hsum, execute_add m.toNat k.toNat hrun]
    cases hm : execute cfg R m.toNat (σ.setState .RUNNING) with
    | error f => rfl
    | ok τ =>
      obtain ⟨its, hits⟩ := execute_eq_ok.1 hm
      change (cpuExec cfg R k (afterExecute τ)).map _ = _
      rcases hits.outcome hd hw hrun with hτ | hτ
      · -- the first call ran out of steps
        rw [afterExecute_of_running hτ, cpuExec_resume k hτ]
        simp only [bind, Except.bind, if_pos hτ]
      · have hne : τ.ns.state ≠ .RUNNING := by
          rcases hτ with ⟨hs, -⟩ | hs <;> rw [hs] <;> decide
        obtain ⟨τ', hk, harch⟩ := cpuExec_over (R := R) hd hw k hτ
        rw [afterExecute_of_ne hne, hk]
        simp only [bind, Except.bind, if_neg hne]
        exact congrArg Except.ok (harch.trans (arch_afterExecute τ).symm)

/-- Stepping is compositional, and a run that meets no `ebreak` and no invalid instruction counts
the steps asked for. -/
theorem stepping (hd : cfg.DIFFTEST = false) (hw : cfg.WATCHPOINT = false) (σ : Sim ρ) :
    (∀ m k : BitVec 64, m.toNat + k.toNat < 2 ^ 64 →
      (cpuExec cfg R m σ >>= cpuExec cfg R k).map Sim.arch =
        (cpuExec cfg R (m + k) σ).map Sim.arch) ∧
    ∀ (n : BitVec 64) (its : List (IterStates ρ)) (τ : Sim ρ),
      ¬ (σ.ns.state = .END ∨ σ.ns.state = .ABORT) →
      Executes cfg R n.toNat (σ.setState .RUNNING) its τ → (∀ it ∈ its, ¬ it.Halts) →
      ∃ σ', cpuExec cfg R n σ = .ok σ' ∧ σ'.nrGuestInst = σ.nrGuestInst + n := by
  refine ⟨fun m k hmk => cpuExec_add hd hw σ hmk, fun n its τ hend run hhalt => ?_⟩
  obtain ⟨hτ, hcount⟩ := run.counts hd hw rfl hhalt
  refine ⟨τ.setState .STOP, ?_, ?_⟩
  · rw [cpuExec_eq hend, execute_eq_ok.2 ⟨its, run⟩, ← afterExecute_of_running hτ]
    rfl
  · rw [BitVec.ofNat_toNat, BitVec.setWidth_eq] at hcount
    exact hcount

theorem addi_not_halts (start : Sim Unit) (rd : Reg) (imm : BitVec 12) :
    ¬ (addiIter start rd imm).Halts := by
  rintro (hebreak | ⟨p, hp, hname⟩)
  · exact Insn.encode_ne_ebreak (.base (.opImm .addi rd 0 imm)) hebreak
  · obtain ⟨q, hq, hname', -⟩ := find_encode (.opImm .addi rd 0 imm)
    cases hp.symm.trans hq
    rw [hname] at hname'
    cases hname'

/-- Two instructions, one at a time and in one go. -/
theorem stepping_two_addi :
    (cpuExec defaultConfig noRef 1 (codeSim twoAddi) >>= cpuExec defaultConfig noRef 1).map Sim.arch =
        (cpuExec defaultConfig noRef (1 + 1) (codeSim twoAddi)).map Sim.arch ∧
      ∃ σ, cpuExec defaultConfig noRef 2 (codeSim twoAddi) = .ok σ ∧ σ.nrGuestInst = 0 + 2 := by
  have hrun : Executes defaultConfig noRef 2 ((codeSim twoAddi).setState .RUNNING)
      [firstAddi (codeSim twoAddi), secondAddi (codeSim twoAddi)] (secondAddi (codeSim twoAddi)).watched := by
    have h₁ : IsIteration defaultConfig noRef (firstAddi (codeSim twoAddi)) :=
      isIteration_addi rfl rfl (twoAddi_fetch (k := 0) rfl rfl rfl) rfl
    have h₂ : IsIteration defaultConfig noRef (secondAddi (codeSim twoAddi)) :=
      isIteration_addi rfl rfl (twoAddi_fetch (k := 1) rfl rfl rfl) rfl
    exact .next _ h₁ rfl (.next _ h₂ rfl (.done _))
  have h := @stepping Unit defaultConfig noRef rfl rfl (codeSim twoAddi)
  refine ⟨h.1 1 1 (by decide), h.2 2 _ _ (by decide) hrun fun it hit => ?_⟩
  rcases List.mem_pair.mp hit with rfl | rfl <;> exact addi_not_halts _ _ _

end Calls

end Ysyx.Nemu
