import Ysyx.Am.CteSwitch

/-! The context switch is transparent: in every run of the kernel, whatever thread a yield
resumes goes on with the registers it had at its own `ecall`, and a thread that is started
finds the registers that `kcontext` was asked for. -/

namespace Ysyx.Am.Cte

open Bytes Nemu Rv32

def Origin.gpr : Origin → Rv32.Reg → Word
  | .yielded m, r => m.cpu.gpr r
  | .created kstack _ arg, r => if r = a0 then arg else if r = sp then kstack.stop - 4 else 0

def Origin.pc : Origin → Word
  | .yielded m => m.cpu.pc + 4
  | .created _ entry _ => entry

/-- The context at `c`, on the stack of its thread, has what it stands for in its slots. -/
structure Holds (cfg : Config) (k : Kernel) (v : Word → Byte) (c : Word) (p : Pending) :
    Prop where
  stack : p.stack.Usable cfg k
  lo : p.stack.start.toNat ≤ c.toNat
  hi : c.toNat + CONTEXT_SIZE ≤ p.stack.stop.toNat
  gpr : ∀ n ∈ REGS, getSlot v c n = p.origin.gpr (xreg n)
  sp : c + BitVec.ofNat 32 CONTEXT_SIZE = p.origin.gpr sp
  mepc : getSlot v c (NR_REGS + 2) = p.origin.pc
  zero : p.origin.gpr 0 = 0

section Pending

variable {cfg : Config} {k : Kernel} {v v' : Word → Byte} {c : Word} {p : Pending} {a : Area}
  {pending : Word → Option Pending}

theorem sub_lt_context (h : c.toNat + CONTEXT_SIZE ≤ 2 ^ 32) {b : Word} :
    (b - c).toNat < CONTEXT_SIZE ↔ c.toNat ≤ b.toNat ∧ b.toNat < c.toNat + CONTEXT_SIZE :=
  sub_toNat_lt_iff h

theorem toNat_sub_ofNat {a : Word} {k : ℕ} (h : k ≤ a.toNat) :
    (a - BitVec.ofNat 32 k).toNat = a.toNat - k := by
  have := a.isLt
  rw [BitVec.toNat_sub, BitVec.toNat_ofNat, Nat.mod_eq_of_lt (show k < 2 ^ 32 by omega)]
  omega

/-- A context that fits on a usable stack has a frame there. -/
theorem Area.Usable.frame (h : a.Usable cfg k) (hlo : a.start.toNat ≤ c.toNat)
    (hhi : c.toNat + CONTEXT_SIZE ≤ a.stop.toNat) : Frame cfg k c where
  inMem := by
    have hin := h.inMem.sub (k := c.toNat - a.start.toNat) (l := CONTEXT_SIZE) (by omega)
    have hc : a.start + BitVec.ofNat 32 (c.toNat - a.start.toNat) = c := by
      apply BitVec.eq_of_toNat_eq
      rw [toNat_add_ofNat] <;> omega
    rwa [hc] at hin
  apart b hb := by
    have := a.stop.isLt
    rw [sub_lt_context (by omega)] at hb
    exact h.apart b ⟨by omega, by omega⟩

theorem Holds.frame (h : Holds cfg k v c p) : Frame cfg k c := h.stack.frame h.lo h.hi

theorem Holds.congr (h : Holds cfg k v c p)
    (hv : ∀ b, (b - c).toNat < CONTEXT_SIZE → v' b = v b) : Holds cfg k v' c p := by
  rw [← context_slots] at hv
  refine ⟨h.stack, h.lo, h.hi, fun n hn => ?_, h.sp, ?_, h.zero⟩
  · have hlt := (mem_REGS.mp hn).1
    rw [getSlot_congr (show n < NR_REGS + 4 by omega) (by decide) hv, h.gpr n hn]
  · rw [getSlot_congr (show NR_REGS + 2 < NR_REGS + 4 by decide) (by decide) hv, h.mepc]

theorem Holds.keeps (h : Holds cfg k v c p) (hp : pending c = some p)
    (hkeeps : Keeps k pending v v') : Holds cfg k v' c p := by
  refine h.congr fun b hb => hkeeps b (.inr ⟨c, p, hp, ?_⟩)
  have := p.stack.stop.isLt
  have hhi := h.hi
  rw [sub_lt_context (by omega)] at hb
  omega

theorem Origin.resumed {o : Origin} {m' : Machine} (hpc : m'.cpu.pc = o.pc)
    (hgpr : ∀ r, m'.cpu.gpr r = o.gpr r) : o.Resumed m' := by
  cases o with
  | yielded m => exact ⟨hpc, fun r _ => hgpr r⟩
  | created kstack entry arg =>
    simp only [Origin.gpr] at hgpr
    refine ⟨hpc, ?_, ?_, fun r ha hs => ?_⟩
    · rw [hgpr, if_pos rfl]
    · rw [hgpr, if_neg (by decide), if_pos rfl]
    · rw [hgpr, if_neg ha, if_neg hs]

theorem gpr_cases (r : Rv32.Reg) : r = 0 ∨ r = sp ∨ ∃ n ∈ REGS, r = xreg n := by
  by_cases hzero : r = 0
  · exact .inl hzero
  by_cases hsp : r = sp
  · exact .inr (.inl hsp)
  · refine .inr (.inr ⟨r.toNat, mem_REGS.mpr ⟨r.isLt, fun h => hzero ?_, fun h => hsp ?_⟩, ?_⟩)
    · exact BitVec.eq_of_toNat_eq h
    · exact BitVec.eq_of_toNat_eq h
    · rw [xreg, BitVec.ofNat_toNat, BitVec.setWidth_eq]

end Pending

/-- The threads that wait have disjoint stacks. -/
def StacksApart (pending : Word → Option Pending) : Prop :=
  ∀ c c' p p', pending c = some p → pending c' = some p' → c ≠ c' → p.stack.Apart p'.stack

/-- What holds whenever a thread runs. -/
structure Inv (cfg : Config) (k : Kernel) (s : Sys) : Prop where
  zero : s.m.cpu.gpr 0 = 0
  mtvec : s.m.cpu.csr.mtvec = k.trap
  code : Placed cfg k.trap k.code s.m.mem.view
  stack : s.stack.Usable cfg k
  holds : ∀ c p, s.pending c = some p → Holds cfg k s.m.mem.view c p
  apart : ∀ c p, s.pending c = some p → p.stack.Apart s.stack
  disjoint : StacksApart s.pending

section Steps

variable {cfg : Config} {k : Kernel} {s : Sys} {m m₁ m₂ : Machine} {c : Word} {p : Pending}
  {mem : Mem}

theorem inv_thread (h : Inv cfg k s) (zero : m.cpu.gpr 0 = 0) (mtvec : m.cpu.csr.mtvec = k.trap)
    (keeps : Keeps k s.pending s.m.mem.view m.mem.view) : Inv cfg k { s with m := m } where
  zero := zero
  mtvec := mtvec
  code := h.code.congr fun b hb => keeps b (.inl hb)
  stack := h.stack
  holds c p hp := (h.holds c p hp).keeps hp keeps
  apart := h.apart
  disjoint := h.disjoint

theorem frames_apart {a a' : Area} {c c' b : Word} (h : a.Apart a') (hlo : a.start.toNat ≤ c.toNat)
    (hhi : c.toNat + CONTEXT_SIZE ≤ a.stop.toNat) (hlo' : a'.start.toNat ≤ c'.toNat)
    (hhi' : c'.toNat + CONTEXT_SIZE ≤ a'.stop.toNat) (hb : (b - c).toNat < CONTEXT_SIZE) :
    ¬ (b - c').toNat < CONTEXT_SIZE := by
  have := a.stop.isLt
  have := a'.stop.isLt
  rw [sub_lt_context (by omega)] at hb
  rw [sub_lt_context (by omega)]
  rcases h with h | h <;> omega

theorem Area.Apart.symm {a a' : Area} (h : a.Apart a') : a'.Apart a := Or.symm h

theorem update_eq_some {pending : Word → Option Pending} {c c' : Word} {p p' : Pending}
    (h : Function.update pending c (some p) c' = some p') :
    c' = c ∧ p' = p ∨ c' ≠ c ∧ pending c' = some p' := by
  by_cases hc : c' = c
  · rw [hc, Function.update_self] at h
    exact .inl ⟨hc, (Option.some.inj h).symm⟩
  · rw [Function.update_of_ne hc] at h
    exact .inr ⟨hc, h⟩

theorem StacksApart.update {pending : Word → Option Pending} (h : StacksApart pending)
    (hnew : ∀ c' p', pending c' = some p' → p'.stack.Apart p.stack) :
    StacksApart (Function.update pending c (some p)) := by
  intro c₁ c₂ p₁ p₂ h₁ h₂ hne
  rcases update_eq_some h₁ with ⟨hc₁, hp₁⟩ | ⟨-, hold₁⟩ <;>
    rcases update_eq_some h₂ with ⟨hc₂, hp₂⟩ | ⟨-, hold₂⟩
  · exact absurd (hc₁.trans hc₂.symm) hne
  · exact hp₁ ▸ (hnew c₂ p₂ hold₂).symm
  · exact hp₂ ▸ hnew c₁ p₁ hold₁
  · exact h c₁ c₂ p₁ p₂ hold₁ hold₂ hne

/-- A context laid out on a stack that no waiting thread has leaves the others as they are. -/
theorem holds_update {pending : Word → Option Pending} {v v' : Word → Byte}
    (h : ∀ c' p', pending c' = some p' → Holds cfg k v c' p') (hnew : Holds cfg k v' c p)
    (hapart : ∀ c' p', pending c' = some p' → p'.stack.Apart p.stack)
    (hv : ∀ b, ¬ (b - c).toNat < CONTEXT_SIZE → v' b = v b) {c' : Word} {p' : Pending}
    (hp : Function.update pending c (some p) c' = some p') : Holds cfg k v' c' p' := by
  rcases update_eq_some hp with ⟨rfl, rfl⟩ | ⟨-, hp⟩
  · exact hnew
  · have hold := h c' p' hp
    exact hold.congr fun b hb => hv b
      (frames_apart (hapart c' p' hp) hold.lo hold.hi hnew.lo hnew.hi hb)

/-- Writing into a frame leaves `__am_asm_trap` as it is. -/
theorem Frame.code {v v' : Word → Byte} (h : Frame cfg k c)
    (hv : ∀ b, ¬ (b - c).toNat < CONTEXT_SIZE → v' b = v b) (hcode : Placed cfg k.trap k.code v) :
    Placed cfg k.trap k.code v' :=
  hcode.congr fun b hb => hv b fun hin => h.apart b hin hb

theorem inv_create {kstack : Area} {entry arg : Word} (h : Inv cfg k s)
    (usable : kstack.Usable cfg k)
    (room : kstack.start.toNat + sizeofContext + 4 ≤ kstack.stop.toNat)
    (running : kstack.Apart s.stack)
    (fresh : ∀ c p, s.pending c = some p → kstack.Apart p.stack)
    (make : kcontext cfg s.m.mem kstack entry arg = .ok (c, mem)) :
    Inv cfg k { s with
      m := { s.m with mem := mem }
      pending := Function.update s.pending c (some ⟨kstack, .created kstack entry arg⟩) } := by
  have hsize : sizeofContext = CONTEXT_SIZE := rfl
  have htop : (kstack.stop - 4).toNat = kstack.stop.toNat - 4 :=
    toNat_sub_ofNat (k := 4) (by omega)
  have hc : (kstack.stop - 4 - BitVec.ofNat 32 sizeofContext).toNat =
      kstack.stop.toNat - 4 - sizeofContext := by
    rw [toNat_sub_ofNat (by omega), htop]
  have hlo : kstack.start.toNat ≤ (kstack.stop - 4 - BitVec.ofNat 32 sizeofContext).toNat := by
    omega
  have hframe := usable.frame hlo (by omega)
  obtain ⟨mem', hmake, hgpr, hmepc, hmem⟩ :=
    kcontext_ok entry arg rfl hframe.inMem s.m.mem
  rw [make] at hmake
  cases hmake
  have hnew : Holds cfg k mem.view (kstack.stop - 4 - BitVec.ofNat 32 sizeofContext)
      ⟨kstack, .created kstack entry arg⟩ := by
    refine ⟨usable, hlo, by dsimp only; omega, fun n hn => ?_, ?_, hmepc, rfl⟩
    · obtain ⟨hlt, -, htwo⟩ := mem_REGS.mp hn
      have hten : xreg n = a0 ↔ n = 10 := xreg_inj hlt (by decide)
      have hsp : xreg n ≠ sp := fun h => htwo ((xreg_inj hlt (by decide)).mp h)
      rw [hgpr n hlt, Origin.gpr, if_neg hsp]
      simp only [hten]
    · exact sub_add_cancel _ _
  have hheld := fun c' p' (hp : s.pending c' = some p') => (fresh c' p' hp).symm
  exact {
    zero := h.zero
    mtvec := h.mtvec
    code := hframe.code hmem h.code
    stack := h.stack
    holds := fun c' p' hp => holds_update h.holds hnew hheld hmem hp
    apart := fun c' p' hp => by
      rcases update_eq_some hp with ⟨-, rfl⟩ | ⟨-, hp⟩
      · exact running
      · exact h.apart c' p' hp
    disjoint := h.disjoint.update hheld }

/-- The thread that yields leaves a context of its own, and every pending context holds in
memory once `__am_irq_handle` has moved that one past its `ecall`. -/
structure Stopped (cfg : Config) (k : Kernel) (s : Sys) (v : Word → Byte) : Prop where
  code : Placed cfg k.trap k.code v
  holds : ∀ c p, s.stopped c = some p → Holds cfg k v c p
  disjoint : StacksApart s.stopped

theorem ctx_bounds (h : s.AtEcall cfg) : s.stack.start.toNat ≤ s.ctx.toNat ∧
    s.ctx.toNat + CONTEXT_SIZE ≤ s.stack.stop.toNat := by
  have hroom := h.room
  have htop := h.top
  have hctx : s.ctx.toNat = (s.m.cpu.gpr sp).toNat - CONTEXT_SIZE := toNat_sub_ofNat (by omega)
  omega

theorem save_ok (hrve : cfg.RVE = false) (h : Inv cfg k s) (hat : s.AtEcall cfg) :
    ∃ m₁, execSteps cfg saveSteps s.m = .ok m₁ ∧ Entered k s.ctx s.m m₁ := by
  obtain ⟨hlo, hhi⟩ := ctx_bounds hat
  exact execSteps_save hrve h.zero h.mtvec h.code hat.inMem hat.ecall (h.stack.frame hlo hhi) rfl

theorem stopped_ok (h : Inv cfg k s) (hat : s.AtEcall cfg) (hm₁ : Entered k s.ctx s.m m₁) :
    ∃ mem, irqEvent cfg (m₁.cpu.gpr a0) m₁.mem = .ok (yieldEvent, mem) ∧
      Stopped cfg k s mem.view := by
  obtain ⟨hlo, hhi⟩ := ctx_bounds hat
  have hframe := h.stack.frame hlo hhi
  obtain ⟨mem, hevent, hview⟩ := irqEvent_ok hframe.inMem hm₁.mcause
  rw [hm₁.a0]
  refine ⟨mem, hevent, ?_⟩
  have hout : ∀ b, ¬ (b - s.ctx).toNat < CONTEXT_SIZE → mem.view b = s.m.mem.view b := by
    intro b hb
    rw [hview, setSlot_out (n := NR_REGS + 4) (by decide) (by rwa [context_slots]), hm₁.mem b hb]
  have hnew : Holds cfg k mem.view s.ctx ⟨s.stack, .yielded s.m⟩ := by
    refine ⟨h.stack, hlo, hhi, fun n hn => ?_, sub_add_cancel _ _, ?_, h.zero⟩
    · have hlt := (mem_REGS.mp hn).1
      rw [NR_REGS] at hlt
      rw [hview, NR_REGS, getSlot_setSlot_ne (by omega) (by decide) (by omega), hm₁.gpr n hn]
      rfl
    · rw [hview, getSlot_setSlot_self, hm₁.mepc]
      rfl
  exact {
    code := hframe.code hout h.code
    holds := fun c' p' hp => holds_update h.holds hnew h.apart hout hp
    disjoint := h.disjoint.update h.apart }

theorem Stopped.keeps {v v' : Word → Byte} (h : Stopped cfg k s v)
    (hkeeps : Keeps k s.stopped v v') : Stopped cfg k s v' where
  code := h.code.congr fun b hb => hkeeps b (.inl hb)
  holds c p hp := (h.holds c p hp).keeps hp hkeeps
  disjoint := h.disjoint

/-- The user handler is called, and what it returns is not null. -/
theorem handle_ok {user : UserHandler} (h : Inv cfg k s) (hat : s.AtEcall cfg)
    (hm₁ : Entered k s.ctx s.m m₁) (huser : Schedules cfg k s user m₁) :
    ∃ c p mem, amIrqHandle cfg (some user) (m₁.cpu.gpr a0) m₁.mem = .ok (c, mem) ∧
      s.stopped c = some p ∧ Stopped cfg k s mem.view := by
  obtain ⟨mem, hevent, hstopped⟩ := stopped_ok h hat hm₁
  obtain ⟨c, p, mem', hcall, hp, hkeeps⟩ := huser mem hevent
  have hstopped' := hstopped.keeps hkeeps
  have hc : c ≠ 0 := by
    rintro rfl
    -- nothing of the guest's memory is mapped at null
    rcases (hstopped'.holds 0 p hp).frame.inMem with hflash | hsram
    · exact absurd hflash.base (by decide)
    · exact absurd hsram.base (by decide)
  refine ⟨c, p, mem', ?_, hp, hstopped'⟩
  simp only [amIrqHandle, hevent, hcall, bind, Except.bind, if_neg hc]

/-- The thread whose context was returned goes on as the context says. -/
theorem restore_ok (hrve : cfg.RVE = false) (hm₁ : Entered k s.ctx s.m m₁)
    (hvec : s.m.cpu.csr.mtvec = k.trap) (h : Stopped cfg k s mem.view) (hp : s.stopped c = some p)
    (hret : Returned k s c mem m₁ m₂) :
    ∃ m', execSteps cfg restoreSteps m₂ = .ok m' ∧ p.origin.Resumed m' ∧
      Inv cfg k ⟨m', p.stack, Function.update s.stopped c none⟩ := by
  have h₂ := h.keeps hret.mem
  have hholds := h₂.holds c p hp
  obtain ⟨m', hsteps, hpc, hgprs, hsp, hzero, hmtvec, hmem⟩ := execSteps_restore hrve hret.zero
    h₂.code (hret.pc.trans hm₁.ra) hholds.frame hret.a0
  have hgpr (r : Rv32.Reg) : m'.cpu.gpr r = p.origin.gpr r := by
    rcases gpr_cases r with rfl | rfl | ⟨n, hn, rfl⟩
    · rw [hzero, hholds.zero]
    · rw [hsp, hholds.sp]
    · rw [hgprs n hn, hholds.gpr n hn]
  refine ⟨m', hsteps, Origin.resumed (hpc.trans hholds.mepc) hgpr, ?_⟩
  have hother {c' : Word} {p' : Pending} (hp' : Function.update s.stopped c none c' = some p') :
      c' ≠ c ∧ s.stopped c' = some p' := by
    by_cases hc : c' = c
    · rw [hc, Function.update_self] at hp'
      cases hp'
    · rw [Function.update_of_ne hc] at hp'
      exact ⟨hc, hp'⟩
  exact {
    zero := hzero
    mtvec := by rw [hmtvec, hret.csr, hm₁.mtvec, hvec]
    code := hmem ▸ h₂.code
    stack := hholds.stack
    holds := fun c' p' hp' => hmem ▸ h₂.holds c' p' (hother hp').2
    apart := fun c' p' hp' => h.disjoint c' c p' p (hother hp').2 hp (hother hp').1
    disjoint := fun c₁ c₂ p₁ p₂ hp₁ hp₂ => h.disjoint c₁ c₂ p₁ p₂ (hother hp₁).2 (hother hp₂).2 }

theorem Step.inv {s' : Sys} (hrve : cfg.RVE = false) (h : Inv cfg k s) (hstep : Step cfg k s s') :
    Inv cfg k s' := by
  cases hstep with
  | thread zero mtvec keeps => exact inv_thread h zero mtvec keeps
  | create usable room running fresh make => exact inv_create h usable room running fresh make
  | yield ecall save schedules handle returned pending restore =>
    obtain ⟨m₁, hsave, hm₁⟩ := save_ok hrve h ecall
    cases save.symm.trans hsave
    obtain ⟨c, p, mem, hhandle, hp, hstopped⟩ := handle_ok h ecall hm₁ schedules
    cases handle.symm.trans hhandle
    cases pending.symm.trans hp
    obtain ⟨m', hrestore, -, hinv⟩ := restore_ok hrve hm₁ h.mtvec hstopped hp returned
    cases restore.symm.trans hrestore
    exact hinv

theorem Starts.inv (h : Starts cfg k s) : Inv cfg k s where
  zero := h.zero
  mtvec := h.mtvec
  code := h.code
  stack := h.stack
  holds c p hp := by
    rw [h.pending] at hp
    cases hp
  apart c p hp := by
    rw [h.pending] at hp
    cases hp
  disjoint c c' p p' hp := by
    rw [h.pending] at hp
    cases hp

theorem Run.inv (hrve : cfg.RVE = false) (run : Run cfg k s) : Inv cfg k s := by
  induction run with
  | start h => exact h.inv
  | step run hstep ih => exact hstep.inv hrve ih

/-- Whenever a thread yields, in whatever order the threads have run before, the trap reaches
`__am_irq_handle` with its context; the user handler is told `EVENT_YIELD`; and from the return
of `__am_irq_handle` on, the emulator goes on as the pending context that was returned says. -/
theorem yield_resumes (hrve : cfg.RVE = false) (run : Run cfg k s) (hat : s.AtEcall cfg) :
    ∃ m₁, execSteps cfg saveSteps s.m = .ok m₁ ∧ m₁.cpu.pc = k.irqHandle ∧
      m₁.cpu.gpr a0 = s.ctx ∧ (∃ mem, irqEvent cfg s.ctx m₁.mem = .ok (yieldEvent, mem)) ∧
      ∀ user, Schedules cfg k s user m₁ →
        ∃ c p mem, amIrqHandle cfg (some user) s.ctx m₁.mem = .ok (c, mem) ∧
          s.stopped c = some p ∧ ∀ m₂, Returned k s c mem m₁ m₂ →
            ∃ m', execSteps cfg restoreSteps m₂ = .ok m' ∧ p.origin.Resumed m' ∧
              Run cfg k ⟨m', p.stack, Function.update s.stopped c none⟩ := by
  have h := run.inv hrve
  obtain ⟨m₁, hsave, hm₁⟩ := save_ok hrve h hat
  obtain ⟨mem₁, hevent, -⟩ := stopped_ok h hat hm₁
  refine ⟨m₁, hsave, hm₁.pc, hm₁.a0, ⟨mem₁, hm₁.a0 ▸ hevent⟩, fun user huser => ?_⟩
  obtain ⟨c, p, mem, hhandle, hp, hstopped⟩ := handle_ok h hat hm₁ huser
  refine ⟨c, p, mem, hm₁.a0 ▸ hhandle, hp, fun m₂ hret => ?_⟩
  obtain ⟨m', hrestore, hresumed, -⟩ := restore_ok hrve hm₁ h.mtvec hstopped hp hret
  exact ⟨m', hrestore, hresumed, .step run (.yield hat hsave huser hhandle hret hp hrestore)⟩

end Steps

def bootKernel : Kernel := ⟨0x30000000, 0x100⟩

def bootStack : Area := ⟨0x0f000000, 0x0f001000⟩

def otherStack : Area := ⟨0x0f001000, 0x0f002000⟩

/-- The only thread is at an `ecall` that stands after `__am_asm_trap`. -/
def bootSys : Sys where
  m :=
    { cpu := ⟨Function.update 0 sp 0x0f001000, slot 0x30000000 bootKernel.code.length,
        ⟨0, 0, 0x1800, 0x30000000⟩⟩
      mem := imageOfCode (bootKernel.code ++ [.ecall])
      nemuState := ⟨.RUNNING, 0, 0⟩
      isSkipRef := false
      skipDutNrInst := 0 }
  stack := bootStack
  pending := fun _ => none

theorem bootCode_length : bootKernel.code.length = 79 := rfl

theorem usable_of_sram {a : Area} (hlo : SRAM_BASE ≤ a.start.toNat)
    (hle : a.start.toNat ≤ a.stop.toNat) (hhi : a.stop.toNat ≤ SRAM_BASE + SRAM_SIZE) :
    a.Usable defaultConfig bootKernel where
  le := hle
  inMem := .inr ⟨hlo, by omega⟩
  apart b hb := by
    have hstop := hb.2
    have htrap : bootKernel.trap.toNat = 0x30000000 := rfl
    rw [SRAM_BASE, SRAM_SIZE] at hhi
    rw [Kernel.Text, bootCode_length, sub_toNat_lt_iff (by rw [htrap]; decide), htrap]
    omega

theorem bootSys_words {n : ℕ} {i : Insn} (hi : (bootKernel.code ++ [.ecall])[n]? = some i) :
    getSlot bootSys.m.mem.view 0x30000000 n = i.encode :=
  imageOfCode_words (by rw [List.length_append, bootCode_length]; decide) hi

theorem bootSys_starts : Starts defaultConfig bootKernel bootSys where
  zero := rfl
  mtvec := rfl
  code :=
    { inMem := .inl ⟨by decide, by rw [bootCode_length]; decide, by rw [bootCode_length]; decide,
        by rw [bootCode_length]; decide⟩
      words := fun n i hi => bootSys_words (by
        rw [List.getElem?_append_left (List.getElem?_eq_some_iff.mp hi).1, hi]) }
  stack := usable_of_sram (by decide) (by decide) (by decide)
  pending := rfl

/-- Where `kcontext` puts the context of a second thread. -/
def otherCtx : Word := otherStack.stop - 4 - BitVec.ofNat 32 sizeofContext

/-- The thread has made a second one, which is to run from `0x30001000` with 7 in `a0`. -/
def twoThreads (mem : Mem) : Sys where
  m := { bootSys.m with mem := mem }
  stack := bootStack
  pending := Function.update bootSys.pending otherCtx
    (some ⟨otherStack, .created otherStack 0x30001000 7⟩)

theorem twoThreads_run : ∃ mem, Run defaultConfig bootKernel (twoThreads mem) ∧
    (twoThreads mem).AtEcall defaultConfig := by
  have husable : otherStack.Usable defaultConfig bootKernel :=
    usable_of_sram (by decide) (by decide) (by decide)
  have hframe : Frame defaultConfig bootKernel otherCtx := husable.frame (by decide) (by decide)
  obtain ⟨mem, hmake, -, -, hmem⟩ :=
    kcontext_ok 0x30001000 7 rfl hframe.inMem bootSys.m.mem
  have hrun := (Run.start bootSys_starts).step (.create husable (by decide) (.inr (by decide))
    (fun c p hp => by cases hp) hmake)
  have hpc : InMem defaultConfig (slot 0x30000000 79) 4 :=
    .inl ⟨by decide, by decide, by decide, by decide⟩
  have hroom : bootStack.start.toNat + CONTEXT_SIZE ≤ (0x0f001000 : Word).toNat := by decide
  have htop : (0x0f001000 : Word).toNat ≤ bootStack.stop.toNat := by decide
  refine ⟨mem, hrun, hpc, ?_, hroom, htop⟩
  -- the `ecall` is outside the frame that was written
  have hsame : getSlot mem.view 0x30000000 79 = getSlot bootSys.m.mem.view 0x30000000 79 := by
    refine getSlot_congr (n := 80) (by decide) (by decide) fun b hb => hmem b fun hin => ?_
    change (b - otherCtx).toNat < CONTEXT_SIZE at hin
    rw [sub_toNat_lt_iff (by decide)] at hb
    rw [sub_lt_context (by decide)] at hin
    have htrap : (0x30000000 : Word).toNat = 0x30000000 := rfl
    have hctx : otherCtx.toNat + CONTEXT_SIZE = 0x0f001ffc := by decide
    omega
  exact hsame.trans (bootSys_words rfl)

/-- A user handler that always returns the same context. -/
def switchTo (c : Word) : UserHandler := fun _ _ mem => .ok (c, mem)

/-- From the `ecall` of the running thread to where the thread of the context at `c` goes on. -/
def Switches (cfg : Config) (k : Kernel) (s : Sys) (c : Word) (m' : Machine) : Prop :=
  ∃ m₁ mem m₂, execSteps cfg saveSteps s.m = .ok m₁ ∧
    amIrqHandle cfg (some (switchTo c)) s.ctx m₁.mem = .ok (c, mem) ∧
    Returned k s c mem m₁ m₂ ∧ execSteps cfg restoreSteps m₂ = .ok m'

theorem switchTo_returns {cfg : Config} {c c' ctx : Word} {mem mem' : Mem}
    (h : amIrqHandle cfg (some (switchTo c)) ctx mem = .ok (c', mem')) : c' = c := by
  obtain ⟨⟨ev, mem₁⟩, -, hcall⟩ := bind_eq_ok.mp h
  obtain ⟨r, hr, hif⟩ := bind_eq_ok.mp hcall
  cases hr
  dsimp only at hif
  split_ifs at hif
  cases hif
  rfl

theorem switches_of_resumes {cfg : Config} {k : Kernel} {s : Sys} {m₁ : Machine} {c : Word}
    {p : Pending} (hsave : execSteps cfg saveSteps s.m = .ok m₁) (hp : s.stopped c = some p)
    (h : ∀ user, Schedules cfg k s user m₁ →
      ∃ c p mem, amIrqHandle cfg (some user) s.ctx m₁.mem = .ok (c, mem) ∧
        s.stopped c = some p ∧ ∀ m₂, Returned k s c mem m₁ m₂ →
          ∃ m', execSteps cfg restoreSteps m₂ = .ok m' ∧ p.origin.Resumed m' ∧
            Run cfg k ⟨m', p.stack, Function.update s.stopped c none⟩) :
    ∃ m', Switches cfg k s c m' ∧ p.origin.Resumed m' ∧
      Run cfg k ⟨m', p.stack, Function.update s.stopped c none⟩ := by
  obtain ⟨c', p', mem, hhandle, hp', hresume⟩ := h (switchTo c) fun mem _ =>
    ⟨c, p, mem, rfl, hp, fun _ _ => rfl⟩
  obtain rfl := switchTo_returns hhandle
  cases hp.symm.trans hp'
  let m₂ : Machine := { m₁ with
    cpu := { m₁.cpu with
      gpr := Function.update (Function.update m₁.cpu.gpr a0 c') 0 0
      pc := m₁.cpu.gpr ra }
    mem := mem }
  have hret : Returned k s c' mem m₁ m₂ := ⟨rfl, rfl, rfl, rfl, fun _ _ => rfl⟩
  obtain ⟨m', hrestore, hresumed, hrun⟩ := hresume m₂ hret
  exact ⟨m', ⟨m₁, mem, m₂, hsave, hhandle, hret, hrestore⟩, hresumed, hrun⟩

theorem Run.toEcall {cfg : Config} {k : Kernel} {s : Sys} (hrve : cfg.RVE = false)
    (run : Run cfg k s) (hin : InMem cfg s.m.cpu.pc 4)
    (houtside : ∀ b, (k.Text b ∨ ∃ c p, s.pending c = some p ∧ c.toNat ≤ b.toNat ∧
      b.toNat < p.stack.stop.toNat) → ¬ (b - s.m.cpu.pc).toNat < 4)
    (room : s.stack.start.toNat + CONTEXT_SIZE ≤ (s.m.cpu.gpr sp).toNat)
    (top : (s.m.cpu.gpr sp).toNat ≤ s.stack.stop.toNat) :
    ∃ mem, Run cfg k { s with m := { s.m with mem := mem } } ∧
      Sys.AtEcall cfg { s with m := { s.m with mem := mem } } := by
  obtain ⟨mem, -, hview⟩ := paddrWrite_ok s.m.mem Insn.ecall.encode hin (by decide)
  have hinv := run.inv hrve
  have hstep : Step cfg k s { s with m := { s.m with mem := mem } } :=
    .thread hinv.zero hinv.mtvec fun b hb => by
      change mem.view b = s.m.mem.view b
      rw [hview]
      exact storeLE_out _ _ (houtside b hb)
  refine ⟨mem, run.step hstep, hin, ?_, room, top⟩
  change loadLE mem.view s.m.cpu.pc 4 = _
  rw [hview, loadLE_storeLE_same]

/-- The first thread yields and the second one is started; then that one yields and the first one goes
on behind its `ecall`. -/
theorem yield_resumes_back : ∃ s t m m', Run defaultConfig bootKernel s ∧
    Switches defaultConfig bootKernel s otherCtx m ∧ m.cpu.pc = 0x30001000 ∧
    m.cpu.gpr a0 = 7 ∧ m.cpu.gpr sp = 0x0f001ffc ∧
    Run defaultConfig bootKernel t ∧ t.stack = otherStack ∧
    Switches defaultConfig bootKernel t s.ctx m' ∧ m'.cpu.pc = s.m.cpu.pc + 4 ∧
    ∀ r, r ≠ 0 → m'.cpu.gpr r = s.m.cpu.gpr r := by
  obtain ⟨mem₀, hrun, hat⟩ := twoThreads_run
  obtain ⟨m₁, hsave, -, -, -, h⟩ := yield_resumes rfl hrun hat
  have hne : otherCtx ≠ (twoThreads mem₀).ctx := by
    change otherCtx ≠ (0x0f001000 : Word) - BitVec.ofNat 32 CONTEXT_SIZE
    decide
  have hother : (twoThreads mem₀).stopped otherCtx =
      some ⟨otherStack, .created otherStack 0x30001000 7⟩ := by
    have hmade : (twoThreads mem₀).pending otherCtx =
        some ⟨otherStack, .created otherStack 0x30001000 7⟩ :=
      Function.update_self otherCtx _ bootSys.pending
    exact (Function.update_of_ne hne _ _).trans hmade
  obtain ⟨m, hswitch, ⟨hpc, ha, hsp, -⟩, hrun'⟩ := switches_of_resumes hsave hother h
  let s' : Sys := ⟨m, otherStack, Function.update (twoThreads mem₀).stopped otherCtx none⟩
  have hstopped : s'.pending (twoThreads mem₀).ctx = some ⟨bootStack, .yielded (twoThreads mem₀).m⟩ :=
    (Function.update_of_ne hne.symm _ _).trans (Function.update_self _ _ _)
  have hin : InMem defaultConfig m.cpu.pc 4 := by
    rw [hpc]
    exact .inl ⟨by decide, by decide, by decide, by decide⟩
  have hroom : otherStack.start.toNat + CONTEXT_SIZE ≤ (m.cpu.gpr sp).toNat := by
    rw [hsp]
    decide
  have htop : (m.cpu.gpr sp).toNat ≤ otherStack.stop.toNat := by
    rw [hsp]
    decide
  have hpending (c : Word) (p : Pending) (hp : s'.pending c = some p) : p.stack = bootStack := by
    by_cases hc : c = otherCtx
    · have hnone : s'.pending otherCtx = none :=
        Function.update_self otherCtx none (twoThreads mem₀).stopped
      rw [hc, hnone] at hp
      cases hp
    · have hsame : s'.pending c = (twoThreads mem₀).stopped c := Function.update_of_ne hc _ _
      have hnone : (twoThreads mem₀).pending c = none := Function.update_of_ne hc _ _
      rcases update_eq_some (hsame.symm.trans hp) with ⟨-, rfl⟩ | ⟨-, hp⟩
      · rfl
      · cases hnone.symm.trans hp
  have houtside : ∀ b, (bootKernel.Text b ∨ ∃ c p, s'.pending c = some p ∧ c.toNat ≤ b.toNat ∧
      b.toNat < p.stack.stop.toNat) → ¬ (b - m.cpu.pc).toNat < 4 := by
    rw [hpc]
    have htrap : bootKernel.trap.toNat = 0x30000000 := rfl
    have hentry : (0x30001000 : Word).toNat = 0x30001000 := rfl
    have hstack : bootStack.stop.toNat = 0x0f001000 := rfl
    rintro b (htext | ⟨c, p, hp, -, hstop⟩)
    · rw [Kernel.Text, bootCode_length, sub_toNat_lt_iff (by rw [htrap]; decide), htrap] at htext
      rw [sub_toNat_lt_iff (by decide), hentry]
      omega
    · rw [hpending c p hp, hstack] at hstop
      rw [sub_toNat_lt_iff (by decide), hentry]
      omega
  obtain ⟨mem, hrun₂, hat₂⟩ := Run.toEcall (s := s') rfl hrun' hin houtside hroom htop
  · obtain ⟨m₁', hsave', -, -, -, h'⟩ := yield_resumes rfl hrun₂ hat₂
    have hfirst : Sys.stopped { s' with m := { s'.m with mem := mem } } (twoThreads mem₀).ctx =
        some ⟨bootStack, .yielded (twoThreads mem₀).m⟩ := by
      refine (Function.update_of_ne ?_ _ _).trans hstopped
      change (0x0f001000 : Word) - BitVec.ofNat 32 CONTEXT_SIZE ≠
        m.cpu.gpr sp - BitVec.ofNat 32 CONTEXT_SIZE
      rw [hsp]
      decide
    obtain ⟨m', hswitch', ⟨hpc', hgpr'⟩, -⟩ := switches_of_resumes hsave' hfirst h'
    exact ⟨_, _, m, m', hrun, hswitch, hpc, ha, hsp, hrun₂, rfl, hswitch', hpc', hgpr'⟩

end Ysyx.Am.Cte
