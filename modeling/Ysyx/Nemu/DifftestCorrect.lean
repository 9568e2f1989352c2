import Ysyx.Nemu.Iteration
import Ysyx.Nemu.WatchStep

/-! What `difftest_step` establishes. Whenever the machine still runs and no catching up
is in progress, the general registers of the two machines agree; the pc is not
compared. `NEMU_ABORT` is only ever set where a general register differs. -/

namespace Ysyx.Nemu

open Bytes

variable {ρ : Type}

def SameGpr (cpu ref : CPUState) : Prop := ∀ r, cpu.gpr r = ref.gpr r

section Step

variable {cfg : Config} {R : RefModel ρ}

theorem checkregsFrom_iff (hrve : cfg.RVE = false) {cpu ref : CPUState} {n i : ℕ}
    (hi : i + n = 32) :
    checkregsFrom cfg cpu ref n i = .ok (decide (∀ k, i ≤ k → k < 32 →
      cpu.gpr (BitVec.ofNat 5 k) = ref.gpr (BitVec.ofNat 5 k))) := by
  induction n generalizing i with
  | zero =>
    rw [checkregsFrom]
    congr 1
    exact (decide_eq_true fun k hk hlt => by omega).symm
  | succ n ih =>
    have hlt : i < cfg.nrGpr := by
      rw [Config.nrGpr, hrve]
      exact (by omega : i < 32)
    rw [checkregsFrom, if_pos hlt]
    split_ifs with hne
    · congr 1
      exact (decide_eq_false fun h => hne (h i le_rfl (by omega))).symm
    · rw [not_not] at hne
      rw [ih (by omega)]
      congr 1
      rw [decide_eq_decide]
      constructor
      · intro h k hk hlt
        rcases Nat.eq_or_lt_of_le hk with rfl | hk
        · exact hne
        · exact h k hk hlt
      · exact fun h k hk hlt => h k (by omega) hlt

instance (cpu ref : CPUState) : Decidable (SameGpr cpu ref) := inferInstanceAs (Decidable (∀ _, _))

theorem isaDifftestCheckregs_eq (hrve : cfg.RVE = false) (cpu ref : CPUState) :
    isaDifftestCheckregs cfg cpu ref = .ok (decide (SameGpr cpu ref)) := by
  rw [isaDifftestCheckregs, checkregsFrom_iff hrve rfl]
  congr 1
  rw [decide_eq_decide]
  constructor
  · intro h r
    have := h r.toNat (Nat.zero_le _) r.isLt
    rwa [BitVec.ofNat_toNat, BitVec.setWidth_eq] at this
  · exact fun h k _ _ => h _

/-- `checkregs` aborts exactly on a register that differs. -/
theorem checkregs_eq (hrve : cfg.RVE = false) (m : Machine) (ref : CPUState) (pc : Word) :
    checkregs cfg m ref pc = .ok (if SameGpr m.cpu ref then m
      else { m with nemuState := { m.nemuState with state := .ABORT, haltPc := pc } }) := by
  rw [checkregs, isaDifftestCheckregs_eq hrve]
  by_cases h : SameGpr m.cpu ref <;> simp [bind, Except.bind, pure, Except.pure, h]

/-- Registers that are set are the ones read back, a reference that ignores what is written to
`R(0)` included. -/
def RefModel.SetsRegs (R : RefModel ρ) : Prop :=
  ∀ cpu r, cpu.gpr 0 = 0 → SameGpr cpu (R.regs (R.setRegs cpu r))

/-- What one call of `difftest_step` establishes. -/
structure DiffStep (R : RefModel ρ) (m m' : Machine) (r' : ρ) : Prop where
  cpu : m'.cpu = m.cpu
  mem : m'.mem = m.mem
  agree : m'.nemuState.state = .RUNNING → m'.skipDutNrInst = 0 → SameGpr m'.cpu (R.regs r')
  kept : SameGpr m'.cpu (R.regs r') → m'.nemuState = m.nemuState

theorem diffStep_checkregs (hrve : cfg.RVE = false) {m₁ m' : Machine} {r : ρ} {pc : Word}
    (h : checkregs cfg m₁ (R.regs r) pc = .ok m') (m : Machine) (hcpu : m₁.cpu = m.cpu)
    (hmem : m₁.mem = m.mem) (hns : m₁.nemuState = m.nemuState) : DiffStep R m m' r := by
  rw [checkregs_eq hrve] at h
  by_cases hs : SameGpr m₁.cpu (R.regs r)
  · rw [if_pos hs] at h
    cases h
    exact ⟨hcpu, hmem, fun _ _ => hs, fun _ => hns⟩
  · rw [if_neg hs] at h
    cases h
    exact ⟨hcpu, hmem, fun hrun => (nomatch hrun), fun hs' => absurd hs' hs⟩

theorem difftestStep_spec (hrve : cfg.RVE = false) (hset : R.SetsRegs) {m m' : Machine} {r r' : ρ}
    {pc npc : Word} (h0 : m.cpu.gpr 0 = 0)
    (h : difftestStep cfg R m r pc npc = .ok (m', r')) : DiffStep R m m' r' := by
  rcases difftestStep_cases cfg R h with
    ⟨-, -, rfl, hcheck⟩ | ⟨-, -, rfl, hlast, rfl⟩ | ⟨-, -, rfl, rfl⟩ | ⟨-, -, rfl, hcheck⟩
  · exact diffStep_checkregs hrve hcheck m rfl rfl rfl
  · exact ⟨rfl, rfl, fun _ h0 => absurd h0 hlast, fun _ => rfl⟩
  · exact ⟨rfl, rfl, fun _ _ => hset _ _ h0, fun _ => rfl⟩
  · exact diffStep_checkregs hrve hcheck m rfl rfl rfl

end Step

/-- What happens between two calls of `difftest_step`: instructions change the guest and leave
`R(0)` zero, and the skip functions are called, in any order. -/
inductive Between (cfg : Config) (R : RefModel ρ) : Machine × ρ → Machine × ρ → Prop where
  | refl (s : Machine × ρ) : Between cfg R s s
  | guest {s : Machine × ρ} {m : Machine} {r : ρ} (h : Between cfg R s (m, r)) (m' : Machine)
      (h0 : m.cpu.gpr 0 = 0 → m'.cpu.gpr 0 = 0) (href : m'.isSkipRef = m.isSkipRef)
      (hdut : m'.skipDutNrInst = m.skipDutNrInst) : Between cfg R s (m', r)
  | skipRef {s : Machine × ρ} {m : Machine} {r : ρ} (h : Between cfg R s (m, r)) :
      Between cfg R s (difftestSkipRef cfg m, r)
  | skipDut {s : Machine × ρ} {m : Machine} {r : ρ} (h : Between cfg R s (m, r))
      (nrRef nrDut : ℤ) : Between cfg R s (difftestSkipDut R m r nrRef nrDut)

/-- An iteration of `execute` under `CONFIG_DIFFTEST`: its start, the call of `difftest_step`,
and its end, which `wp_difftest` may have stopped. -/
structure DiffIter (ρ : Type) where
  start : Machine × ρ
  called : Machine × ρ
  stepped : Machine × ρ
  last : Machine × ρ

structure IsDiffIter (cfg : Config) (R : RefModel ρ) (it : DiffIter ρ) : Prop where
  between : Between cfg R it.start it.called
  step : ∃ pc npc, difftestStep cfg R it.called.1 it.called.2 pc npc = .ok it.stepped
  last : it.last = it.stepped ∨ it.last = (it.stepped.1.stop, it.stepped.2)

/-- A run of `execute`, iteration after iteration. -/
inductive DiffRun (cfg : Config) (R : RefModel ρ) : Machine × ρ → List (DiffIter ρ) → Prop where
  | nil (s : Machine × ρ) : DiffRun cfg R s []
  | cons {it : DiffIter ρ} {its : List (DiffIter ρ)} (h : IsDiffIter cfg R it)
      (rest : DiffRun cfg R it.last its) : DiffRun cfg R it.start (it :: its)

section Runs

variable {cfg : Config} {R : RefModel ρ}

theorem difftestSkipRef_cpu (m : Machine) : (difftestSkipRef cfg m).cpu = m.cpu := by
  unfold difftestSkipRef
  split_ifs <;> rfl

theorem Between.zero {s s' : Machine × ρ} (h : Between cfg R s s') (h0 : s.1.cpu.gpr 0 = 0) :
    s'.1.cpu.gpr 0 = 0 := by
  induction h with
  | refl => exact h0
  | guest _ m' hm' _ _ ih => exact hm' ih
  | skipRef _ ih => exact (congrArg (·.gpr 0) (difftestSkipRef_cpu _)).trans ih
  | skipDut _ _ _ ih => exact ih

/-- A machine that still runs and has nothing to catch up agrees with the reference, and
`difftest_step` has aborted only where a register differs. -/
structure DiffIter.Agrees (it : DiffIter ρ) (R : RefModel ρ) : Prop where
  agree : it.last.1.nemuState.state = .RUNNING → it.last.1.skipDutNrInst = 0 →
    SameGpr it.last.1.cpu (R.regs it.last.2)
  kept : SameGpr it.stepped.1.cpu (R.regs it.stepped.2) →
    it.stepped.1.nemuState = it.called.1.nemuState

theorem IsDiffIter.agrees (hrve : cfg.RVE = false) (hset : R.SetsRegs) {it : DiffIter ρ}
    (h : IsDiffIter cfg R it) (h0 : it.start.1.cpu.gpr 0 = 0) :
    it.Agrees R ∧ it.last.1.cpu.gpr 0 = 0 := by
  obtain ⟨pc, npc, hstep⟩ := h.step
  have hcalled := h.between.zero h0
  have hspec := difftestStep_spec hrve hset hcalled hstep
  have hstepped : it.stepped.1.cpu.gpr 0 = 0 := by rw [hspec.cpu, hcalled]
  refine ⟨⟨fun hrun hcatch => ?_, hspec.kept⟩, ?_⟩
  · rcases h.last with heq | heq
    · rw [heq] at hrun hcatch ⊢
      exact hspec.agree hrun hcatch
    · rw [heq] at hrun
      cases hrun
  · rcases h.last with heq | heq <;> rw [heq] <;> exact hstepped

theorem DiffRun.agrees (hrve : cfg.RVE = false) (hset : R.SetsRegs) {s : Machine × ρ}
    {its : List (DiffIter ρ)} (run : DiffRun cfg R s its) (h0 : s.1.cpu.gpr 0 = 0) :
    ∀ it ∈ its, it.Agrees R := by
  induction run with
  | nil => exact fun it hit => (List.not_mem_nil hit).elim
  | cons h rest ih =>
    obtain ⟨hagrees, hlast⟩ := h.agrees hrve hset h0
    intro it hit
    rcases List.mem_cons.mp hit with rfl | hit
    · exact hagrees
    · exact ih hlast it hit

theorem between_of_effect {m m' : Machine} {s' : Decode} {r : ρ} (h : Effect cfg m m' s')
    (h0 : m'.cpu.gpr 0 = 0) : Between cfg R (m, r) (m', r) := by
  cases h with
  | quiet _ h => exact .guest (.refl _) m' (fun _ => h0) h.isSkipRef h.skipDutNrInst
  | ebreak _ _ _ h => exact .guest (.skipRef (.refl _)) m' (fun _ => h0) h.isSkipRef h.skipDutNrInst
  | inv _ h => exact .guest (.skipRef (.refl _)) m' (fun _ => h0) h.isSkipRef h.skipDutNrInst

def IterStates.diffIter (it : IterStates ρ) : DiffIter ρ :=
  ⟨(it.start.m, it.start.ref), (it.tested.m, it.tested.ref), (it.diffed.m, it.diffed.ref),
    (it.watched.m, it.watched.ref)⟩

/-- The iterations of `execute` are such iterations, without calls of `difftest_skip_dut`. -/
theorem IsIteration.diffIter {it : IterStates ρ} (h : IsIteration cfg R it)
    (hdiff : cfg.DIFFTEST = true) :
    IsDiffIter cfg R it.diffIter := by
  obtain ⟨m, hexec, hm⟩ := h.exec
  unfold IterStates.diffIter
  refine ⟨?_, ⟨it.s.pc, it.tested.m.cpu.pc, ?_⟩, ?_⟩
  · have heffect := between_of_effect (R := R) (r := it.start.ref) (isaExecOnce_effect hexec).1
      (isaExecOnce_gpr_zero hexec)
    have hcpu : (afterIsaExec it.s m).cpu.gpr = m.cpu.gpr := by
      unfold afterIsaExec
      split_ifs <;> rfl
    have htested : it.tested.m = afterIsaExec it.s m := by rw [h.tested, hm]
    have href : it.tested.ref = it.start.ref := by rw [h.tested, hm]
    rw [htested, href]
    refine .guest heffect _ (fun h0 => by rw [hcpu, h0]) ?_ ?_ <;> unfold afterIsaExec <;> split_ifs <;> rfl
  · have hd := h.diffed
    rw [difftestHook, if_pos hdiff] at hd
    obtain ⟨⟨m', r'⟩, hstep, hd⟩ := bind_eq_ok.mp hd
    rw [ofCpu_eq_ok.mp hstep]
    injection hd with hd
    rw [← hd]
  · have hw := h.watched
    unfold watchHook at hw
    split_ifs at hw
    · obtain ⟨⟨m', w', out⟩, hpass, hw⟩ := bind_eq_ok.mp hw
      obtain ⟨a, -, hpass⟩ := wpDifftest_pass (ofWp_eq_ok.mp hpass)
      injection hw with hw
      rw [← hw]
      by_cases hout : out = []
      · left
        rw [hpass.state, stopIf, if_pos hout]
      · right
        rw [hpass.state, stopIf, if_neg hout]
    · injection hw with hw
      exact .inl (by rw [hw])

theorem Executes.diffRun {n : ℕ} {σ σ' : Sim ρ} {its : List (IterStates ρ)}
    (run : Executes cfg R n σ its σ') (hdiff : cfg.DIFFTEST = true) :
    DiffRun cfg R (σ.m, σ.ref) (its.map IterStates.diffIter) := by
  induction run with
  | done σ => exact .nil _
  | stop it h _ => exact .cons (h.diffIter hdiff) (.nil _)
  | next it h _ _ ih => exact .cons (h.diffIter hdiff) ih

/-- The loop keeps `R(0)` zero. -/
theorem Executes.zero {n : ℕ} {σ σ' : Sim ρ} {its : List (IterStates ρ)}
    (run : Executes cfg R n σ its σ') (hrve : cfg.RVE = false) (hset : R.SetsRegs)
    (hdiff : cfg.DIFFTEST = true) (h0 : σ.m.cpu.gpr 0 = 0) : σ'.m.cpu.gpr 0 = 0 := by
  induction run with
  | done σ => exact h0
  | stop it h _ => exact ((h.diffIter hdiff).agrees hrve hset h0).2
  | next it h _ _ ih => exact ih ((h.diffIter hdiff).agrees hrve hset h0).2

theorem Session.agrees (hrve : cfg.RVE = false) (hset : R.SetsRegs) (hdiff : cfg.DIFFTEST = true)
    {σ₀ σ : Sim ρ} {its : List (IterStates ρ)} (run : Session cfg R σ₀ its σ)
    (h0 : σ₀.m.cpu.gpr 0 = 0) :
    (∀ it ∈ its, it.diffIter.Agrees R) ∧ σ.m.cpu.gpr 0 = 0 := by
  induction run with
  | nil => exact ⟨fun it hit => (List.not_mem_nil hit).elim, h0⟩
  | snoc _ _ trace ih =>
    obtain ⟨ih, hzero⟩ := ih
    cases trace with
    | ended h =>
      rw [List.append_nil]
      exact ⟨ih, hzero⟩
    | pool w =>
      rw [List.append_nil]
      exact ⟨ih, hzero⟩
    | ran h hexec =>
      constructor
      · intro it hit
        rcases List.mem_append.mp hit with hit | hit
        · exact ih it hit
        · exact (hexec.diffRun hdiff).agrees hrve hset hzero _ (List.mem_map_of_mem hit)
      · have hlast := hexec.zero hrve hset hdiff hzero
        unfold afterExecute
        split_ifs <;> exact hlast

/-- Whatever the commands of a session are, all its iterations agree. -/
theorem runCmds_agree (hrve : cfg.RVE = false) (hset : R.SetsRegs) (hdiff : cfg.DIFFTEST = true)
    {cmds : List Cmd} {σ σ' : Sim ρ} (h0 : σ.m.cpu.gpr 0 = 0)
    (h : cmds.foldlM (fun σ cmd => runCmd cfg R cmd σ) σ = .ok σ') :
    ∃ its, Session cfg R σ its σ' ∧ ∀ it ∈ its, it.diffIter.Agrees R := by
  obtain ⟨its, run⟩ := session_of_runCmds h
  exact ⟨its, run, (run.agrees hrve hset hdiff h0).1⟩

/-- In every run that begins with `R(0)` zero, with any calls of the skip functions in between: a
machine that still runs and has nothing to catch up agrees with the reference on every general
register, and `difftest_step` aborts only where one differs. -/
theorem difftest_gprs_agree (hrve : cfg.RVE = false) (hset : R.SetsRegs)
    {s : Machine × ρ} {its : List (DiffIter ρ)} (h0 : s.1.cpu.gpr 0 = 0)
    (run : DiffRun cfg R s its) :
    ∀ it ∈ its,
      (it.last.1.nemuState.state = .RUNNING → it.last.1.skipDutNrInst = 0 →
        SameGpr it.last.1.cpu (R.regs it.last.2)) ∧
      (SameGpr it.stepped.1.cpu (R.regs it.stepped.2) →
        it.stepped.1.nemuState = it.called.1.nemuState) := by
  intro it hit
  obtain ⟨hagree, hkept⟩ := run.agrees hrve hset h0 it hit
  exact ⟨hagree, hkept⟩

end Runs

/-- A reference that never leaves its pc and ignores what is written to `R(0)`. -/
def stuckRef : RefModel CPUState :=
  ⟨id, id, fun cpu _ => { cpu with gpr := Function.update cpu.gpr 0 0 }⟩

theorem stuckRef_setsRegs : stuckRef.SetsRegs := by
  intro cpu _ h0 r
  change cpu.gpr r = Function.update cpu.gpr 0 0 r
  rw [← h0, Function.update_eq_self]

def diffConfig : Config := { defaultConfig with DIFFTEST := true }

/-- An instruction that has changed only the pc of a machine whose reference stayed behind. -/
def stuckIter : DiffIter CPUState :=
  let start := startOf 0 0
  let called := { start with cpu := { start.cpu with pc := 0x30000004 } }
  ⟨(start, start.cpu), (called, start.cpu), (called, start.cpu), (called, start.cpu)⟩

theorem diffRun_stuck : DiffRun diffConfig stuckRef stuckIter.start [stuckIter] := by
  have hcheck (pc : Word) : checkregs diffConfig stuckIter.called.1 (startOf 0 0).cpu pc =
      .ok stuckIter.called.1 := by
    have hsame : SameGpr stuckIter.called.1.cpu (startOf 0 0).cpu := fun _ => rfl
    rw [checkregs_eq rfl, if_pos hsame]
  refine .cons ⟨.guest (.refl _) _ id rfl rfl, ⟨0x30000000, 0x30000004, ?_⟩, .inl rfl⟩ (.nil _)
  rw [difftestStep, if_neg (by decide), if_neg (by decide)]
  exact bind_eq_ok.mpr ⟨_, hcheck 0x30000000, rfl⟩

theorem difftest_gprs_agree_stuck :
    (stuckIter.last.1.nemuState.state = .RUNNING → stuckIter.last.1.skipDutNrInst = 0 →
      SameGpr stuckIter.last.1.cpu (stuckRef.regs stuckIter.last.2)) ∧
    (SameGpr stuckIter.stepped.1.cpu (stuckRef.regs stuckIter.stepped.2) →
      stuckIter.stepped.1.nemuState = stuckIter.called.1.nemuState) :=
  difftest_gprs_agree (rfl : diffConfig.RVE = false) stuckRef_setsRegs rfl diffRun_stuck
    stuckIter (List.mem_singleton_self stuckIter)

/-- The iteration ends with `NEMU_RUNNING` and nothing to catch up, and the pcs differ. -/
theorem pc_divergence_passes :
    ¬ ∀ (cfg : Config) (R : RefModel CPUState) (s : Machine × CPUState)
      (its : List (DiffIter CPUState)), cfg.DIFFTEST = true → R.SetsRegs →
      s.1.cpu.gpr 0 = 0 → DiffRun cfg R s its → ∀ it ∈ its,
        it.last.1.nemuState.state = .RUNNING → it.last.1.skipDutNrInst = 0 →
        it.last.1.cpu.pc = (R.regs it.last.2).pc := by
  intro h
  have hpc := h _ _ _ _ rfl stuckRef_setsRegs rfl diffRun_stuck stuckIter (by simp) rfl rfl
  exact absurd hpc (by decide)

end Ysyx.Nemu
