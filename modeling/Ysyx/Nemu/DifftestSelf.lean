import Ysyx.Nemu.DifftestCorrect
import Ysyx.Nemu.DifftestRef
import Ysyx.Nemu.GuestPair

/-! NEMU tested against itself: a debugger session with differential testing is the session without,
command by command and fault by fault. -/

namespace Ysyx.Nemu

open Bytes

section Debugger

variable {cfg : Config} {m : Machine}

theorem evalFrom_build (d w : Bool) (n : ℕ) (ts : List Token) :
    evalFrom (cfg.build d w) m n ts = evalFrom cfg m n ts := by
  have hnum (t : Token) : evalNumReg (cfg.build d w) m t = evalNumReg cfg m t := rfl
  have hcalc (op : TokenType) (v : Word) : calc1 (cfg.build d w) m op v = calc1 cfg m op v := rfl
  induction n generalizing ts with
  | zero => cases ts <;> rfl
  | succ n ih =>
    match ts with
    | [] => rfl
    | [t] => exact hnum t
    | t :: t' :: ts => simp only [evalFrom, ih, hcalc]

theorem evalWp_build (d w : Bool) (e : List Char) : evalWp (cfg.build d w) m e = evalWp cfg m e := by
  simp only [evalWp, expr, eval, evalFrom_build]

theorem wpDifftest_build (d b : Bool) (w : WPPool) :
    wpDifftest (cfg.build d b) m w = wpDifftest cfg m w := by
  have hfrom (n : ℕ) (h : Option WPtr) (m : Machine) (w : WPPool) :
      wpDifftestFrom (cfg.build d b) n h m w = wpDifftestFrom cfg n h m w := by
    induction n generalizing h m w with
    | zero => cases h <;> rfl
    | succ n ih =>
      cases h with
      | none => rfl
      | some p => simp only [wpDifftestFrom, evalWp_build, ih]
  exact hfrom NR_WP w.head m w

end Debugger

/-- The same emulator without differential testing. -/
def Config.alone (cfg : Config) : Config := cfg.build false cfg.WATCHPOINT

/-- The emulator without its reference. -/
def Sim.alone {ρ : Type} (σ : Sim ρ) : Sim Unit := { σ with ref := () }

/-- A reference that can go on from where the other side is. -/
structure Ready (m : Machine) (r : Sim Unit) : Prop where
  guest : SameGuest m r.m
  alive : ¬ (r.m.nemuState.state = .END ∨ r.m.nemuState.state = .ABORT)
  pool : r.w.head = none

/-- Nothing is skipped and the reference is where the emulator is. -/
structure Tracked (σ : Sim RefNemu) : Prop where
  skipRef : σ.m.isSkipRef = false
  skipDut : σ.m.skipDutNrInst = 0
  ref : ∃ r, σ.ref = .ok r ∧ Ready σ.m r

/-- What holds of the two emulators between iterations. -/
structure Beside (σ : Sim RefNemu) (τ : Sim Unit) : Prop where
  alone : σ.alone = τ
  tracked : Tracked σ

section Iterations

variable {cfg : Config} {m a a' : Machine} {s : Decode} {r : Sim Unit} (b : Bool)

theorem SameGuest.afterIsaExec (h : SameGuest a a') (s : Decode) :
    SameGuest (afterIsaExec s a) (afterIsaExec s a') := by
  unfold Ysyx.Nemu.afterIsaExec
  split_ifs
  · exact ⟨h.cpu, h.mem⟩
  · exact ⟨by rw [h.cpu], h.mem⟩

theorem watchHook_empty {ρ : Type} {σ : Sim ρ} (h : σ.w.head = none) : watchHook cfg σ = .ok σ := by
  have hpass : wpDifftest cfg σ.m σ.w = .ok (σ.m, σ.w, []) := by
    rw [wpDifftest, h]
    rfl
  rw [watchHook]
  split_ifs
  · simp only [hpass, ofWp, bind, Except.bind, List.append_nil]
    rfl
  · rfl

theorem execute_one {ρ : Type} {R : RefModel ρ} {σ τ : Sim ρ} (h : iteration cfg R σ = .ok τ) :
    execute cfg R 1 σ = .ok τ := by
  simp only [execute, h, bind, Except.bind]
  split_ifs <;> rfl

/-- `difftest_exec(1)` takes the reference where the instruction has taken the emulator. -/
theorem Ready.exec (hd : cfg.DIFFTEST = true) (hskip : m.isSkipRef = false)
    (hexec : isaExecOnce cfg ⟨m.cpu.pc, m.cpu.pc, 0, 0⟩ m = .ok (s, a)) (hon : SameRun m a)
    (h : Ready m r) : ∃ r', cpuExec (cfg.build false b) nullRef 1 r = .ok r' ∧
      Ready (afterIsaExec s a) r' := by
  have hguest : SameGuest m (r.setState .RUNNING).m := ⟨h.guest.cpu, h.guest.mem⟩
  have hpair := isaExecOnce_pair cfg false b hguest ⟨m.cpu.pc, m.cpu.pc, 0, 0⟩
  rw [hexec] at hpair
  generalize hx : isaExecOnce (cfg.build false b) ⟨m.cpu.pc, m.cpu.pc, 0, 0⟩ (r.setState .RUNNING).m =
    x at hpair
  obtain ⟨hs, hsame, hwent⟩ := hpair
  rename_i out
  obtain ⟨s', c⟩ := out
  dsimp only at hs hsame hwent
  subst hs
  have hrun : SameRun (r.setState .RUNNING).m c := by
    cases hwent with
    | on _ h' => exact h'
    | ended state pc ret h _ _ =>
      have hflag := h.isSkipRef
      rw [hon.isSkipRef, hskip] at hflag
      simp only [setNemuState, difftestSkipRef, hd, if_true] at hflag
      cases hflag
  let exec : Sim Unit := { r.setState .RUNNING with m := c }
  let tested : Sim Unit := { exec with m := afterIsaExec s c, nrGuestInst := exec.nrGuestInst + 1 }
  have hit : IsIteration (cfg.build false b) nullRef ⟨s, r.setState .RUNNING, exec, tested, tested, tested⟩ := by
    refine ⟨⟨c, ?_, rfl⟩, rfl, rfl, watchHook_empty h.pool⟩
    rw [← hx, ← hguest.cpu]
  have hiter := iteration_eq_ok.mpr ⟨_, rfl, rfl, hit⟩
  have hstate : tested.m.nemuState.state = .RUNNING ∨ tested.m.nemuState.state = .STOP := by
    dsimp only [tested]
    unfold afterIsaExec
    split_ifs
    · exact .inr rfl
    · refine .inl ?_
      dsimp only
      rw [hrun.nemuState]
      rfl
  have hlast : SameGuest (afterIsaExec s a) tested.m := hsame.afterIsaExec s
  refine ⟨afterExecute tested, ?_, ?_⟩
  · rw [cpuExec_eq h.alive]
    have hone : execute (cfg.build false b) nullRef (1 : BitVec 64).toNat (r.setState .RUNNING) = .ok tested :=
      execute_one hiter
    simp only [hone, bind, Except.bind]
    rfl
  · unfold afterExecute
    split_ifs with hrunning
    · refine ⟨⟨hlast.cpu, hlast.mem⟩, ?_, h.pool⟩
      rintro (he | he) <;> cases he
    · refine ⟨hlast, ?_, h.pool⟩
      rw [hstate.resolve_left hrunning]
      rintro (he | he) <;> cases he

theorem machine_eq (h : SameGuest a a') (hns : a'.nemuState = a.nemuState)
    (hskip : a'.isSkipRef = a.isSkipRef) (hdut : a'.skipDutNrInst = a.skipDutNrInst) : a' = a := by
  obtain ⟨cpu, mem, ns, f, k⟩ := a
  obtain ⟨cpu', mem', ns', f', k'⟩ := a'
  obtain ⟨hcpu, hmem⟩ := h
  dsimp only at hns hskip hdut hcpu hmem
  rw [hns, hskip, hdut, hcpu, hmem]

/-- What `exec_once` leaves of two machines that were the same: the same machine, with a reference
that gets there in a step, or machines that have ended and differ in `is_skip_ref`. -/
inductive Executed (m : Machine) (ref : RefNemu) (b : Bool) (cfg : Config) (a a' : Machine) : Prop
  | on (h : a' = a) (hskip : a.isSkipRef = false) (hdut : a.skipDutNrInst = 0) (r : Sim Unit)
      (hr : (nemuRef (cfg.build false b)).exec ref = .ok r) (hready : Ready a r)
  | ended (hskip : a.isSkipRef = true) (hdut : a.skipDutNrInst = 0)
      (h : a' = { a with isSkipRef := false }) (hmem : a.mem = m.mem)

theorem execOnce_beside (hd : cfg.DIFFTEST = true) {σ : Sim RefNemu} (h : Tracked σ) :
    Lockstep (fun x x' => x.1 = x'.1 ∧ Executed σ.m σ.ref b cfg x.2 x'.2)
      (execOnce cfg σ.m σ.m.cpu.pc) (execOnce cfg.alone σ.m σ.m.cpu.pc) := by
  obtain ⟨r, hr, hready⟩ := h.ref
  have hrefl : SameGuest σ.m σ.m := ⟨rfl, rfl⟩
  have hpair := isaExecOnce_pair cfg false cfg.WATCHPOINT hrefl ⟨σ.m.cpu.pc, σ.m.cpu.pc, 0, 0⟩
  refine hpair.with_results.bind fun ⟨s, a⟩ ⟨s', a'⟩ ⟨⟨hs, hsame, hwent⟩, hexec, _⟩ => ?_
  dsimp only at hs hsame hwent hexec
  subst hs
  refine .ok ⟨rfl, ?_⟩
  dsimp only
  cases hwent with
  | on hrun hrun' =>
    have heq : a' = a := machine_eq hsame (hrun'.nemuState.trans hrun.nemuState.symm)
      (hrun'.isSkipRef.trans hrun.isSkipRef.symm) (hrun'.skipDutNrInst.trans hrun.skipDutNrInst.symm)
    subst heq
    obtain ⟨r', hcpu, hready'⟩ := hready.exec b hd h.skipRef hexec hrun
    refine .on rfl ?_ ?_ r' ?_ hready'
    · rw [← h.skipRef, ← hrun.isSkipRef]
      unfold afterIsaExec
      split_ifs <;> rfl
    · rw [← h.skipDut, ← hrun.skipDutNrInst]
      unfold afterIsaExec
      split_ifs <;> rfl
    · rw [hr]
      exact hcpu
  | ended state pc ret hrun hrun' hmem =>
    have hskip : a.isSkipRef = true := by
      rw [hrun.isSkipRef]
      simp only [setNemuState, difftestSkipRef, hd, if_true]
    have hdut : a.skipDutNrInst = 0 := by
      rw [hrun.skipDutNrInst]
      simp only [setNemuState, difftestSkipRef, hd, if_true]
    have heq : a' = { a with isSkipRef := false } := by
      refine machine_eq (a := { a with isSkipRef := false }) ⟨hsame.cpu, hsame.mem⟩ ?_ ?_ ?_
      · exact hrun'.nemuState.trans hrun.nemuState.symm
      · rw [hrun'.isSkipRef]
        exact h.skipRef
      · rw [hrun'.skipDutNrInst]
        exact h.skipDut.trans hdut.symm
    rw [heq]
    refine .ended ?_ ?_ ?_ ?_
    · rw [← hskip]
      unfold afterIsaExec
      split_ifs <;> rfl
    · rw [← hdut]
      unfold afterIsaExec
      split_ifs <;> rfl
    · unfold afterIsaExec
      split_ifs <;> rfl
    · rw [← hmem]
      unfold afterIsaExec
      split_ifs <;> rfl

theorem difftestHook_beside (hrve : cfg.RVE = false) (hd : cfg.DIFFTEST = true) {σ : Sim RefNemu}
    (h : Tracked σ) (ha : Executed σ.m σ.ref b cfg a a') (nr : BitVec 64) (dnpc : Word) :
    ∃ τ, difftestHook cfg (nemuRef (cfg.build false b)) s dnpc { σ with m := a, nrGuestInst := nr } =
        .ok τ ∧ Beside τ { σ.alone with m := a', nrGuestInst := nr } := by
  obtain ⟨r, hr, hready⟩ := h.ref
  rw [difftestHook, if_pos hd]
  cases ha with
  | on heq hskip hdut r' hr' hready' =>
    subst heq
    have hcheck : checkregs cfg a' ((nemuRef (cfg.build false b)).regs (.ok r')) s.pc = .ok a' := by
      have hsame : SameGpr a'.cpu r'.m.cpu := by
        rw [hready'.guest.cpu]
        exact fun _ => rfl
      rw [checkregs_eq hrve]
      exact congrArg Except.ok (if_pos hsame)
    refine ⟨⟨a', σ.w, .ok r', nr, σ.out⟩, ?_, rfl, hskip, hdut, r', rfl, hready'⟩
    simp only [difftestStep, hdut, lt_irrefl, if_false, hskip, hr', hcheck, bind, Except.bind, ofCpu]
    rfl
  | ended hskip hdut heq hmem =>
    subst heq
    refine ⟨⟨{ a with isSkipRef := false }, σ.w, .ok { r with m := { r.m with cpu := a.cpu } }, nr, σ.out⟩,
      ?_, rfl, rfl, hdut, _, rfl, ⟨rfl, hready.guest.mem.trans hmem.symm⟩, hready.alive, hready.pool⟩
    simp only [difftestStep, hdut, lt_irrefl, if_false, hskip, if_true, hr, bind, Except.bind, ofCpu]
    rfl

theorem watchHook_beside {σ : Sim RefNemu} {τ : Sim Unit} (h : Beside σ τ) :
    Lockstep Beside (watchHook cfg σ) (watchHook cfg.alone τ) := by
  obtain ⟨rfl, htracked⟩ := h
  have hbuild : wpDifftest cfg.alone σ.alone.m σ.alone.w = wpDifftest cfg σ.m σ.w :=
    wpDifftest_build false cfg.WATCHPOINT σ.w
  have hopt : cfg.alone.WATCHPOINT = cfg.WATCHPOINT := rfl
  unfold watchHook
  rw [hopt, hbuild]
  split_ifs
  · refine .same fun ⟨m', w', out⟩ hpass => .ok ⟨rfl, ?_⟩
    obtain ⟨p, -, hpass⟩ := wpDifftest_pass (ofWp_eq_ok.mp hpass)
    obtain ⟨r, hr, hready⟩ := htracked.ref
    have hm := hpass.state
    have hskip : m'.isSkipRef = false := by
      rw [hm, ← htracked.skipRef]
      unfold stopIf
      split_ifs <;> rfl
    have hdut : m'.skipDutNrInst = 0 := by
      rw [hm, ← htracked.skipDut]
      unfold stopIf
      split_ifs <;> rfl
    refine ⟨hskip, hdut, r, hr, ⟨?_, ?_⟩, hready.alive, hready.pool⟩
    · rw [hready.guest.cpu, hm, stopIf_cpu]
    · rw [hready.guest.mem, hm, stopIf_mem]
  · exact .ok ⟨rfl, htracked⟩

theorem ofCpu_lockstep {α α' : Type} {R : α → α' → Prop} {x : Except Fault α} {x' : Except Fault α'}
    (h : Lockstep R x x') : Lockstep R (ofCpu x) (ofCpu x') := by
  cases h with
  | ok h => exact .ok h
  | error e => exact .error _

theorem iteration_beside (hrve : cfg.RVE = false) (hd : cfg.DIFFTEST = true) {σ : Sim RefNemu}
    {τ : Sim Unit} (h : Beside σ τ) :
    Lockstep Beside (iteration cfg (nemuRef (cfg.build false b)) σ)
      (iteration cfg.alone nullRef τ) := by
  obtain ⟨rfl, htracked⟩ := h
  refine (ofCpu_lockstep (execOnce_beside b hd htracked)).bind fun ⟨s, a⟩ ⟨s', a'⟩ ⟨hs, ha⟩ => ?_
  dsimp only at hs ha
  subst hs
  obtain ⟨υ, hhook, hbeside⟩ := difftestHook_beside (s := s) b hrve hd htracked ha
    (σ.nrGuestInst + 1) a.cpu.pc
  have hnone : difftestHook cfg.alone nullRef s a'.cpu.pc
      { σ.alone with m := a', nrGuestInst := σ.nrGuestInst + 1 } =
      .ok { σ.alone with m := a', nrGuestInst := σ.nrGuestInst + 1 } := rfl
  simp only [traceAndDifftest, hhook, bind, Except.bind]
  exact watchHook_beside hbeside

theorem execute_beside (hrve : cfg.RVE = false) (hd : cfg.DIFFTEST = true) (n : ℕ)
    {σ : Sim RefNemu} {τ : Sim Unit} (h : Beside σ τ) :
    Lockstep Beside (execute cfg (nemuRef (cfg.build false b)) n σ)
      (execute cfg.alone nullRef n τ) := by
  induction n generalizing σ τ with
  | zero => exact .ok h
  | succ n ih =>
    refine (iteration_beside b hrve hd h).bind fun υ υ' hυ => ?_
    have hstate : υ'.m.nemuState.state = υ.m.nemuState.state := by rw [← hυ.alone]; rfl
    rw [hstate]
    split_ifs
    · exact .ok hυ
    · exact ih hυ

theorem Beside.setState {σ : Sim RefNemu} {τ : Sim Unit} (h : Beside σ τ) (state : RunState) :
    Beside (σ.setState state) (τ.setState state) := by
  obtain ⟨rfl, hskip, hdut, r, hr, hready⟩ := h
  exact ⟨rfl, hskip, hdut, r, hr, ⟨hready.guest.cpu, hready.guest.mem⟩, hready.alive, hready.pool⟩

theorem cpuExec_beside (hrve : cfg.RVE = false) (hd : cfg.DIFFTEST = true) (n : BitVec 64)
    {σ : Sim RefNemu} {τ : Sim Unit} (h : Beside σ τ) :
    Lockstep Beside (cpuExec cfg (nemuRef (cfg.build false b)) n σ)
      (cpuExec cfg.alone nullRef n τ) := by
  have hstate : τ.m.nemuState.state = σ.m.nemuState.state := by rw [← h.alone]; rfl
  by_cases hend : σ.m.nemuState.state = .END ∨ σ.m.nemuState.state = .ABORT
  · have hout : cpuExec cfg (nemuRef (cfg.build false b)) n σ = .ok σ ∧
        cpuExec cfg.alone nullRef n τ = .ok τ := by
      rcases hend with he | he <;> simp only [cpuExec, hstate, he, and_self]
    rw [hout.1, hout.2]
    exact .ok h
  · rw [cpuExec_eq hend, cpuExec_eq (by rwa [hstate])]
    refine (execute_beside b hrve hd n.toNat (h.setState .RUNNING)).bind fun υ υ' hυ => .ok ?_
    have hstate' : υ'.m.nemuState.state = υ.m.nemuState.state := by rw [← hυ.alone]; rfl
    unfold afterExecute
    rw [hstate']
    split_ifs
    · exact hυ.setState .STOP
    · exact hυ

theorem runCmd_beside (hrve : cfg.RVE = false) (hd : cfg.DIFFTEST = true) {σ : Sim RefNemu}
    {τ : Sim Unit} (cmd : Cmd) (h : Beside σ τ) :
    Lockstep Beside (runCmd cfg (nemuRef (cfg.build false b)) cmd σ)
      (runCmd cfg.alone nullRef cmd τ) := by
  cases cmd with
  | c => exact cpuExec_beside b hrve hd _ h
  | si step => exact cpuExec_beside b hrve hd _ h
  | w args =>
    obtain ⟨rfl, htracked⟩ := h
    have heval : evalWp cfg.alone σ.alone.m args = evalWp cfg σ.m args :=
      evalWp_build false cfg.WATCHPOINT args
    simp only [runCmd, heval]
    refine .same fun ⟨result, success⟩ _ => ?_
    dsimp only
    split_ifs
    · exact .same fun _ _ => .ok ⟨rfl, htracked.skipRef, htracked.skipDut, htracked.ref⟩
    · exact .ok ⟨rfl, htracked⟩
  | d no =>
    obtain ⟨rfl, htracked⟩ := h
    exact .same fun _ _ => .ok ⟨rfl, htracked.skipRef, htracked.skipDut, htracked.ref⟩

end Iterations

section Start

variable {cfg : Config} {mem mem' : Mem} {addr : Word} {p : HostPtr}

theorem memcpyLoop_mem {buf buf' : ℕ → Byte} {n i : ℕ} {l : List HostPtr}
    (hp : guestToHost addr = .ok p) (hfit : p.off + i + n ≤ p.arr.window)
    (h : memcpyLoop false addr n i mem buf = .ok (mem', buf', l)) (a : HostArray) (j : ℕ) :
    mem' a j = if a = p.arr ∧ p.off + i ≤ j ∧ j < p.off + i + n then buf (j - p.off) else mem a j := by
  induction n generalizing i mem l with
  | zero =>
    cases h
    exact (if_neg (by omega)).symm
  | succ n ih =>
    obtain ⟨q, hq, h⟩ := bind_eq_ok.mp h
    obtain ⟨⟨m₁, buf₁, l₁⟩, hrest, h⟩ := bind_eq_ok.mp h
    cases h
    rw [guestToHost_add hp (by omega)] at hq
    cases hq
    rw [ih (by omega) hrest]
    by_cases ha : a = p.arr
    · subst ha
      simp only [Bool.false_eq_true, if_false, true_and, Function.update_self]
      by_cases hj : j = p.off + i
      · subst hj
        rw [if_neg (by omega), if_pos (by omega), Function.update_self, Nat.add_sub_cancel_left]
      · rw [Function.update_of_ne hj]
        congr 1
        rw [eq_iff_iff]
        omega
    · simp only [Bool.false_eq_true, if_false]
      rw [if_neg fun hc => ha hc.1, if_neg fun hc => ha hc.1, Function.update_of_ne ha]

theorem difftestMemcpy_image {m : Mem} {n : ℕ} {buf : ℕ → Byte} {l : List HostPtr}
    (hp : guestToHost addr = .ok p)
    (hout : ∀ a i, ¬ (a = p.arr ∧ p.off ≤ i ∧ i < p.off + n) → m a i = mem a i)
    (h : difftestMemcpy mem addr (fun i => m p.arr (p.off + i)) n false = .ok (mem', buf, l)) :
    mem' = m := by
  have hloop : memcpyLoop false addr n 0 mem (fun i => m p.arr (p.off + i)) = .ok (mem', buf, l) := by
    unfold difftestMemcpy at h
    split_ifs at h <;> exact h
  obtain ⟨hbase, hstart⟩ := guestToHost_iff.mp hp
  obtain ⟨hfit, -⟩ := memcpyLoop_window p.arr hloop (by omega) (by omega)
  funext a i
  rw [memcpyLoop_mem hp (by omega) hloop]
  split_ifs with hin
  · obtain ⟨rfl, hle, -⟩ := hin
    rw [add_zero] at hle
    rw [Nat.add_sub_cancel' hle]
  · exact (hout a i hin).symm

theorem writeHost_out {data : List Byte} (h : writeHost cfg mem p data = .ok mem') (a : HostArray)
    (i : ℕ) (hout : ¬ (a = p.arr ∧ p.off ≤ i ∧ i < p.off + data.length)) : mem' a i = mem a i := by
  unfold writeHost at h
  split_ifs at h
  cases h
  by_cases ha : a = p.arr
  · subst ha
    rw [Function.update_self, if_neg fun hc => hout ⟨rfl, hc⟩]
  · rw [Function.update_of_ne ha]

theorem loadImg_mem {file : Option (List Byte)} {m m' : Machine} {size : ℕ}
    (hp : guestToHost cfg.MBASE = .ok p) (h : loadImg cfg file m = .ok (m', size)) :
    m'.isSkipRef = m.isSkipRef ∧ m'.skipDutNrInst = m.skipDutNrInst ∧
      ∀ a i, ¬ (a = p.arr ∧ p.off ≤ i ∧ i < p.off + size) → m'.mem a i = m.mem a i := by
  cases file with
  | none =>
    cases h
    exact ⟨rfl, rfl, fun _ _ _ => rfl⟩
  | some data =>
    simp only [loadImg, hp, bind, Except.bind] at h
    cases hw : writeHost cfg m.mem p data with
    | error e => rw [hw] at h; cases h
    | ok mem =>
      rw [hw] at h
      dsimp only at h
      split_ifs at h
      cases h
      exact ⟨rfl, rfl, writeHost_out hw⟩

theorem initMonitor_tracked {file : Option (List Byte)} {σ : Sim RefNemu}
    (h : initMonitor cfg 0 file = .ok σ) : Tracked σ := by
  obtain ⟨m₀, hisa, h⟩ := bind_eq_ok.mp h
  obtain ⟨⟨m, size⟩, hload, h⟩ := bind_eq_ok.mp h
  obtain ⟨ref, hdiff, h⟩ := bind_eq_ok.mp h
  cases h
  obtain ⟨m₁, hisa', hdiff⟩ := bind_eq_ok.mp hdiff
  cases hisa.symm.trans hisa'
  obtain ⟨p, hp, hdiff⟩ := bind_eq_ok.mp hdiff
  obtain ⟨hskip, hdut, hout⟩ := loadImg_mem hp hload
  have hflags : m₀.isSkipRef = false ∧ m₀.skipDutNrInst = 0 ∧ m₀.nemuState.state = .STOP := by
    obtain ⟨q, -, hisa⟩ := bind_eq_ok.mp hisa
    obtain ⟨mem, -, hisa⟩ := bind_eq_ok.mp hisa
    cases hisa
    exact ⟨rfl, rfl, rfl⟩
  split_ifs at hdiff
  obtain ⟨⟨mem, buf, l⟩, hcopy, hdiff⟩ := bind_eq_ok.mp hdiff
  cases hdiff
  have hmem := difftestMemcpy_image hp hout hcopy
  refine ⟨hskip.trans hflags.1, hdut.trans hflags.2.1, _, rfl, ⟨rfl, hmem⟩, ?_, rfl⟩
  dsimp only [initSim]
  rw [hflags.2.2]
  rintro (he | he) <;> cases he

end Start

section Sessions

variable {cfg : Config} {file : Option (List Byte)} {σ : Sim RefNemu}

/-- From `init_monitor` on, with any image and in every session, NEMU with itself as the reference
does what it does without differential testing: no difference is ever reported and no fault is
added or lost. -/
theorem self_difftest (hrve : cfg.RVE = false) (hd : cfg.DIFFTEST = true) (b : Bool)
    (h : initMonitor cfg 0 file = .ok σ) (cmds : List Cmd) :
    Sim.alone <$> cmds.foldlM (fun σ cmd => runCmd cfg (nemuRef (cfg.build false b)) cmd σ) σ =
      cmds.foldlM (fun τ cmd => runCmd cfg.alone nullRef cmd τ) σ.alone := by
  have hstart : Beside σ σ.alone := ⟨rfl, initMonitor_tracked h⟩
  exact ((Lockstep.foldlM (fun _ _ cmd hστ => runCmd_beside b hrve hd cmd hστ) cmds hstart).mono
    fun _ _ hend => hend.alone).map_eq

/-- An image of one instruction. -/
theorem self_difftest_addi : ∃ σ, initMonitor diffConfig 0 (some [0x13, 0, 0, 0]) = .ok σ ∧
    Sim.alone <$> [Cmd.si 3, .c].foldlM
      (fun σ cmd => runCmd diffConfig (nemuRef (diffConfig.build false true)) cmd σ) σ =
        [Cmd.si 3, .c].foldlM (fun τ cmd => runCmd diffConfig.alone nullRef cmd τ) σ.alone := by
  have h : initMonitor diffConfig 0 (some [0x13, 0, 0, 0]) = .ok _ := rfl
  exact ⟨_, h, self_difftest rfl rfl true h _⟩

end Sessions

end Ysyx.Nemu
