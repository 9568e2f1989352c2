import Ysyx.Nemu.CpuExec
import Ysyx.Nemu.InstCorrect

/-! One iteration of `execute` as the states between its statements, and the runs
of the loop and of debugger sessions as the lists of their iterations. What an
instruction can do to `nemu_state` and to the flags of `difftest` is said once. -/

namespace Ysyx.Nemu

open Bytes

/-- The run state and the two flags of `difftest` are as before. -/
structure SameRun (m m' : Machine) : Prop where
  nemuState : m'.nemuState = m.nemuState
  isSkipRef : m'.isSkipRef = m.isSkipRef
  skipDutNrInst : m'.skipDutNrInst = m.skipDutNrInst

theorem SameRun.refl (m : Machine) : SameRun m m := ⟨rfl, rfl, rfl⟩

theorem SameRun.trans {m₁ m₂ m₃ : Machine} (h : SameRun m₁ m₂) (h' : SameRun m₂ m₃) :
    SameRun m₁ m₃ :=
  ⟨h'.nemuState.trans h.nemuState, h'.isSkipRef.trans h.isSkipRef,
    h'.skipDutNrInst.trans h.skipDutNrInst⟩

theorem sameRun_setGpr {cfg : Config} {m m' : Machine} {r : Reg} {v : Word}
    (h : setGpr cfg m r v = .ok m') : SameRun m m' := by
  rw [setGpr_eq_ok h]
  exact ⟨rfl, rfl, rfl⟩

section Bodies

variable {cfg : Config} {m m' : Machine} {s : Decode} {o : Operands} {d : Word}

theorem sameRun_assign {r : Reg} {e : Except Fault Word} {d' : Word}
    (h : (do return (← setGpr cfg m r (← e), d')) = .ok (m', d)) : SameRun m m' := by
  obtain ⟨v, -, h⟩ := bind_eq_ok.mp h
  obtain ⟨m₁, hset, h⟩ := bind_eq_ok.mp h
  cases h
  exact sameRun_setGpr hset

theorem sameRun_link {r : Reg} {v d' : Word}
    (h : (do return (← setGpr cfg m r v, d')) = .ok (m', d)) : SameRun m m' := by
  obtain ⟨m₁, hset, h⟩ := bind_eq_ok.mp h
  cases h
  exact sameRun_setGpr hset

theorem sameRun_store {e : Except Fault Mem} {d' : Word}
    (h : (do return ({ m with mem := ← e }, d')) = .ok (m', d)) : SameRun m m' := by
  obtain ⟨v, -, h⟩ := bind_eq_ok.mp h
  cases h
  exact ⟨rfl, rfl, rfl⟩

/-- Only `ebreak` and `inv` touch the run state. -/
theorem sameRun_execBody {name : InstName} (he : name ≠ .ebreak) (hi : name ≠ .inv)
    (h : execBody cfg m s o name = .ok (m', d)) : SameRun m m' := by
  cases name
  case ebreak => exact absurd rfl he
  case inv => exact absurd rfl hi
  case jal => exact sameRun_link h
  case jalr => exact sameRun_link h
  case sb => exact sameRun_store h
  case sh => exact sameRun_store h
  case sw => exact sameRun_store h
  case csrrw =>
    obtain ⟨r, -, h⟩ := bind_eq_ok.mp h
    obtain ⟨m₁, hset, h⟩ := bind_eq_ok.mp h
    cases h
    exact (sameRun_setGpr hset).trans ⟨rfl, rfl, rfl⟩
  case csrrs =>
    obtain ⟨r, -, h⟩ := bind_eq_ok.mp h
    obtain ⟨m₁, hset, h⟩ := bind_eq_ok.mp h
    cases h
    exact (sameRun_setGpr hset).trans ⟨rfl, rfl, rfl⟩
  case beq | bne | blt | bge | bltu | bgeu | ecall | mret =>
    cases h
    exact ⟨rfl, rfl, rfl⟩
  all_goals exact sameRun_assign h

/-- What one call of `isa_exec_once` can do to the run state. -/
inductive Effect (cfg : Config) (m m' : Machine) (s' : Decode) : Prop where
  | quiet (hword : s'.inst ≠ EBREAK) (h : SameRun m m')
  | ebreak (hword : s'.inst = EBREAK) (code : Word) (ha0 : gpr cfg m 10 = .ok code)
      (h : SameRun (setNemuState cfg m .END s'.pc code) m')
  | inv (hword : s'.inst ≠ EBREAK) (h : SameRun (setNemuState cfg m .ABORT s'.pc (-1)) m')

theorem find_ebreak : ∃ p, instpats.find? (·.hits EBREAK) = some p ∧ p.name = .ebreak ∧
    p.type = .N := by
  rw [find_hits]
  exact ⟨_, rfl, rfl, rfl⟩

theorem find_some (w : Word) : ∃ p, instpats.find? (·.hits w) = some p := by
  rw [find_hits, ← Option.isSome_iff_exists, List.find?_isSome]
  exact ⟨⟨"??????? ????? ????? ??? ????? ????? ??", .inv, .N⟩, by simp [instpats], rfl⟩

theorem eq_ebreak_of_find {w : Word} {p : Instpat} (hp : instpats.find? (·.hits w) = some p)
    (hname : p.name = .ebreak) : w = EBREAK := by
  rw [find_hits] at hp
  have ht := List.find?_some hp
  rw [hname, InstName.shape, Shape.test, Bool.and_eq_true, beq_iff_eq, beq_iff_eq] at ht
  exact ht.2

theorem sameRun_invalidInst {pc : Word} (h : invalidInst cfg m pc = .ok m') :
    SameRun (setNemuState cfg m .ABORT pc (-1)) m' := by
  obtain ⟨i1, -, h⟩ := bind_eq_ok.mp h
  obtain ⟨i2, -, h⟩ := bind_eq_ok.mp h
  cases h
  exact .refl _

theorem isaExecOnce_effect {s' : Decode} (h : isaExecOnce cfg s m = .ok (s', m')) :
    Effect cfg m m' s' ∧ s'.pc = s.pc := by
  obtain ⟨inst, -, h⟩ := bind_eq_ok.mp h
  obtain ⟨p, hp⟩ := find_some inst
  simp only [decodeExec, hp] at h
  obtain ⟨o, -, h⟩ := bind_eq_ok.mp h
  obtain ⟨⟨m₁, d⟩, hbody, h⟩ := bind_eq_ok.mp h
  obtain ⟨m₂, hset, h⟩ := bind_eq_ok.mp h
  cases h
  refine ⟨?_, rfl⟩
  have hlast := sameRun_setGpr hset
  by_cases he : p.name = .ebreak
  · rw [he] at hbody
    obtain ⟨a0, ha0, hbody⟩ := bind_eq_ok.mp hbody
    cases hbody
    exact .ebreak (eq_ebreak_of_find hp he) a0 ha0 hlast
  have hword : inst ≠ EBREAK := by
    rintro rfl
    obtain ⟨q, hq, hname, -⟩ := find_ebreak
    cases hp.symm.trans hq
    exact he hname
  by_cases hi : p.name = .inv
  · refine .inv hword (SameRun.trans ?_ hlast)
    rw [hi] at hbody
    obtain ⟨m₃, hinv, hbody⟩ := bind_eq_ok.mp hbody
    cases hbody
    exact sameRun_invalidInst hinv
  · exact .quiet hword ((sameRun_execBody he hi hbody).trans hlast)

end Bodies

/-- The states between the statements of one iteration. -/
structure IterStates (ρ : Type) where
  /-- `*s` after `isa_exec_once` -/
  s : Decode
  start : Sim ρ
  /-- after `isa_exec_once` -/
  exec : Sim ρ
  /-- after `exec_once` and the count -/
  tested : Sim ρ
  /-- after `difftest_step` -/
  diffed : Sim ρ
  /-- after `wp_difftest` -/
  watched : Sim ρ

section Runs

variable {ρ : Type} (cfg : Config) (R : RefModel ρ)

structure IsIteration (it : IterStates ρ) : Prop where
  exec : ∃ m, isaExecOnce cfg ⟨it.start.m.cpu.pc, it.start.m.cpu.pc, 0, 0⟩ it.start.m =
    .ok (it.s, m) ∧ it.exec = { it.start with m := m }
  tested : it.tested =
    { it.exec with m := afterIsaExec it.s it.exec.m, nrGuestInst := it.exec.nrGuestInst + 1 }
  diffed : difftestHook cfg R it.s it.tested.m.cpu.pc it.tested = .ok it.diffed
  watched : watchHook cfg it.diffed = .ok it.watched

variable {cfg R}

theorem ofCpu_eq_ok {α : Type} {x : Except Fault α} {a : α} : ofCpu x = .ok a ↔ x = .ok a := by
  cases x <;> simp [ofCpu]

theorem ofWp_eq_ok {α : Type} {x : Except WPFault α} {a : α} : ofWp x = .ok a ↔ x = .ok a := by
  cases x <;> simp [ofWp]

theorem iteration_eq_ok {σ σ' : Sim ρ} :
    iteration cfg R σ = .ok σ' ↔ ∃ it, it.start = σ ∧ it.watched = σ' ∧ IsIteration cfg R it := by
  constructor
  · intro h
    obtain ⟨⟨s, m₂⟩, hexec, h⟩ := bind_eq_ok.mp h
    rw [ofCpu_eq_ok] at hexec
    obtain ⟨⟨s₁, m₁⟩, hisa, hexec⟩ := bind_eq_ok.mp hexec
    cases hexec
    obtain ⟨σ₃, hdiff, hwatch⟩ := bind_eq_ok.mp h
    exact ⟨⟨s, σ, { σ with m := m₁ }, { σ with m := afterIsaExec s m₁, nrGuestInst := _ }, σ₃, σ'⟩,
      rfl, rfl, ⟨m₁, hisa, rfl⟩, rfl, hdiff, hwatch⟩
  · rintro ⟨it, rfl, rfl, ⟨m₁, hisa, hexec⟩, htested, hdiff, hwatch⟩
    rw [hexec] at htested
    have honce : execOnce cfg it.start.m it.start.m.cpu.pc = .ok (it.s, afterIsaExec it.s m₁) := by
      rw [execOnce, hisa]
      rfl
    simp only [iteration, honce, ofCpu, traceAndDifftest, bind, Except.bind]
    rw [htested] at hdiff
    rw [hdiff]
    exact hwatch

variable (cfg R)

/-- `execute` ran these iterations. -/
inductive Executes : ℕ → Sim ρ → List (IterStates ρ) → Sim ρ → Prop where
  | done (σ : Sim ρ) : Executes 0 σ [] σ
  | stop {n : ℕ} (it : IterStates ρ) (h : IsIteration cfg R it)
      (hs : it.watched.m.nemuState.state ≠ .RUNNING) : Executes (n + 1) it.start [it] it.watched
  | next {n : ℕ} {its : List (IterStates ρ)} {σ : Sim ρ} (it : IterStates ρ)
      (h : IsIteration cfg R it) (hs : it.watched.m.nemuState.state = .RUNNING)
      (rest : Executes n it.watched its σ) : Executes (n + 1) it.start (it :: its) σ

/-- The state that `cpu_exec` leaves after `execute`. -/
def afterExecute (σ : Sim ρ) : Sim ρ :=
  if σ.m.nemuState.state = .RUNNING then σ.setState .STOP else σ

/-- A command ran these iterations. -/
inductive CmdTrace : Sim ρ → List (IterStates ρ) → Sim ρ → Prop where
  | ended {σ : Sim ρ} (h : σ.m.nemuState.state = .END ∨ σ.m.nemuState.state = .ABORT) :
      CmdTrace σ [] σ
  | ran {n : ℕ} {σ σ' : Sim ρ} {its : List (IterStates ρ)}
      (h : ¬ (σ.m.nemuState.state = .END ∨ σ.m.nemuState.state = .ABORT))
      (run : Executes cfg R n (σ.setState .RUNNING) its σ') : CmdTrace σ its (afterExecute σ')
  | pool {σ : Sim ρ} (w : WPPool) : CmdTrace σ [] { σ with w := w }

/-- A debugger session: commands one after the other, with the iterations they ran. -/
inductive Session : Sim ρ → List (IterStates ρ) → Sim ρ → Prop where
  | nil (σ : Sim ρ) : Session σ [] σ
  | snoc {σ₀ σ σ' : Sim ρ} {its its' : List (IterStates ρ)} {cmd : Cmd} (run : Session σ₀ its σ)
      (h : runCmd cfg R cmd σ = .ok σ') (trace : CmdTrace cfg R σ its' σ') :
      Session σ₀ (its ++ its') σ'

variable {cfg R}

theorem execute_eq_ok {n : ℕ} {σ σ' : Sim ρ} :
    execute cfg R n σ = .ok σ' ↔ ∃ its, Executes cfg R n σ its σ' := by
  induction n generalizing σ with
  | zero =>
    constructor
    · intro h
      cases h
      exact ⟨[], .done _⟩
    · rintro ⟨its, h⟩
      cases h
      rfl
  | succ n ih =>
    constructor
    · intro h
      obtain ⟨σ₁, hbody, h⟩ := bind_eq_ok.mp h
      obtain ⟨it, rfl, rfl, hit⟩ := iteration_eq_ok.mp hbody
      split_ifs at h with hs
      · cases h
        exact ⟨[it], .stop it hit hs⟩
      · obtain ⟨its, hrest⟩ := ih.mp h
        exact ⟨it :: its, .next it hit (not_not.mp hs) hrest⟩
    · rintro ⟨its, h⟩
      cases h with
      | stop it hit hs =>
        rw [execute, iteration_eq_ok.mpr ⟨it, rfl, rfl, hit⟩]
        simp only [bind, Except.bind, if_pos hs, pure, Except.pure]
      | next it hit hs rest =>
        rw [execute, iteration_eq_ok.mpr ⟨it, rfl, rfl, hit⟩]
        simp only [bind, Except.bind, hs, ne_eq, not_true_eq_false, if_false]
        exact ih.mpr ⟨_, rest⟩

theorem cpuExec_eq {n : BitVec 64} {σ : Sim ρ}
    (hend : ¬ (σ.m.nemuState.state = .END ∨ σ.m.nemuState.state = .ABORT)) :
    cpuExec cfg R n σ =
      (do return afterExecute (← execute cfg R n.toNat (σ.setState .RUNNING))) := by
  obtain ⟨hne, hna⟩ := not_or.mp hend
  unfold cpuExec afterExecute
  split
  · next he => exact absurd he hne
  · next he => exact absurd he hna
  · congr 1
    funext τ
    split
    · next he => rw [if_pos he]
    · next he => rw [if_neg he]

/-- `cpu_exec` returns at once or runs the loop. -/
theorem cpuExec_cases {n : BitVec 64} {σ σ' : Sim ρ} (h : cpuExec cfg R n σ = .ok σ') :
    ((σ.m.nemuState.state = .END ∨ σ.m.nemuState.state = .ABORT) ∧ σ' = σ) ∨
      ¬ (σ.m.nemuState.state = .END ∨ σ.m.nemuState.state = .ABORT) ∧
        ∃ its τ, Executes cfg R n.toNat (σ.setState .RUNNING) its τ ∧ σ' = afterExecute τ := by
  by_cases hend : σ.m.nemuState.state = .END ∨ σ.m.nemuState.state = .ABORT
  · have : cpuExec cfg R n σ = .ok σ := by
      rcases hend with he | he <;> simp only [cpuExec, he]
    rw [this] at h
    cases h
    exact .inl ⟨hend, rfl⟩
  · rw [cpuExec_eq hend] at h
    obtain ⟨τ, hτ, h⟩ := bind_eq_ok.mp h
    cases h
    obtain ⟨its, hits⟩ := execute_eq_ok.mp hτ
    exact .inr ⟨hend, its, τ, hits, rfl⟩

theorem cpuExec_trace {n : BitVec 64} {σ σ' : Sim ρ} (h : cpuExec cfg R n σ = .ok σ') :
    ∃ its, CmdTrace cfg R σ its σ' := by
  rcases cpuExec_cases h with ⟨hend, rfl⟩ | ⟨hend, its, τ, hits, rfl⟩
  · exact ⟨[], .ended hend⟩
  · exact ⟨its, .ran hend hits⟩

theorem runCmd_trace {cmd : Cmd} {σ σ' : Sim ρ} (h : runCmd cfg R cmd σ = .ok σ') :
    ∃ its, CmdTrace cfg R σ its σ' := by
  cases cmd with
  | c => exact cpuExec_trace h
  | si step => exact cpuExec_trace h
  | w args =>
    obtain ⟨⟨result, success⟩, -, h⟩ := bind_eq_ok.mp h
    cases success with
    | true =>
      obtain ⟨⟨p, w⟩, -, h⟩ := bind_eq_ok.mp h
      cases h
      exact ⟨[], .pool w⟩
    | false =>
      cases h
      exact ⟨[], .pool σ.w⟩
  | d no =>
    obtain ⟨w, -, h⟩ := bind_eq_ok.mp h
    cases h
    exact ⟨[], .pool w⟩

theorem session_of_runCmds {cmds : List Cmd} {σ σ' : Sim ρ}
    (h : cmds.foldlM (fun σ cmd => runCmd cfg R cmd σ) σ = .ok σ') :
    ∃ its, Session cfg R σ its σ' := by
  have aux : ∀ (cmds : List Cmd) (σ₀ σ σ' : Sim ρ) (its : List (IterStates ρ)),
      Session cfg R σ₀ its σ → cmds.foldlM (fun σ cmd => runCmd cfg R cmd σ) σ = .ok σ' →
      ∃ its', Session cfg R σ₀ its' σ' := by
    intro cmds
    induction cmds with
    | nil =>
      intro σ₀ σ σ' its run h
      cases h
      exact ⟨its, run⟩
    | cons cmd cmds ih =>
      intro σ₀ σ σ' its run h
      rw [List.foldlM_cons] at h
      obtain ⟨σ₁, hcmd, h⟩ := bind_eq_ok.mp h
      obtain ⟨its', htrace⟩ := runCmd_trace hcmd
      exact ih σ₀ σ₁ σ' _ (run.snoc hcmd htrace) h
  exact aux cmds σ σ σ' [] (.nil σ) h

end Runs

end Ysyx.Nemu
