import Ysyx.Am.CteTrap

/-! The two halves of `__am_asm_trap` as the emulator runs them, and the C functions of `cte.c`
on a context in memory. -/

namespace Ysyx.Am.Cte

open Bytes Nemu Rv32

section Trap

variable {cfg : Config} {k : Kernel} {m : Machine} {c : Word}

theorem code_save {j : ℕ} {i : Insn} (h : trapSave[j]? = some i) : k.code[0 + j]? = some i := by
  have hj : j < trapSave.length := (List.getElem?_eq_some_iff.mp h).1
  rw [Nat.zero_add, Kernel.code, amAsmTrap, List.getElem?_append_left hj, h]

theorem code_call : k.code[trapSave.length]? = some (.base (.jal ra k.disp)) := by
  rw [Kernel.code, amAsmTrap, List.getElem?_append_right le_rfl, Nat.sub_self]
  rfl

theorem code_restore {j : ℕ} {i : Insn} (h : (trapRestore ++ [.mret])[j]? = some i) :
    k.code[trapSave.length + 1 + j]? = some i := by
  rw [Kernel.code, amAsmTrap, List.getElem?_append_right (by omega),
    show trapSave.length + 1 + j - trapSave.length = j + 1 by omega, List.getElem?_cons_succ, h]

theorem guest_read (h0 : m.cpu.gpr 0 = 0) (r : Rv32.Reg) : m.guest.read r = m.cpu.gpr r :=
  read_eq h0 r m.cpu.pc

/-- What the machine is when `__am_irq_handle` is entered. -/
structure Entered (k : Kernel) (c : Word) (m m₁ : Machine) : Prop where
  pc : m₁.cpu.pc = k.irqHandle
  ra : m₁.cpu.gpr ra = slot k.trap (trapSave.length + 1)
  a0 : m₁.cpu.gpr a0 = c
  mtvec : m₁.cpu.csr.mtvec = m.cpu.csr.mtvec
  gpr : ∀ n ∈ REGS, getSlot m₁.mem.view c n = m.cpu.gpr (xreg n)
  mcause : getSlot m₁.mem.view c NR_REGS = 0xb
  mepc : getSlot m₁.mem.view c (NR_REGS + 2) = m.cpu.pc
  mem : ∀ b, ¬ (b - c).toNat < CONTEXT_SIZE → m₁.mem.view b = m.mem.view b

/-- From an `ecall` the emulator reaches `__am_irq_handle` with the context laid out. -/
theorem execSteps_save (hrve : cfg.RVE = false) (h0 : m.cpu.gpr 0 = 0)
    (hvec : m.cpu.csr.mtvec = k.trap) (hcode : Placed cfg k.trap k.code m.mem.view)
    (hin : InMem cfg m.cpu.pc 4) (hecall : loadLE m.mem.view m.cpu.pc 4 = Insn.ecall.encode)
    (hframe : Frame cfg k c) (hc : m.cpu.gpr sp - BitVec.ofNat 32 CONTEXT_SIZE = c) :
    ∃ m₁, execSteps cfg saveSteps m = .ok m₁ ∧ Entered k c m m₁ := by
  have hfetch : vaddrIfetch cfg m.mem m.cpu.pc 4 = .ok Insn.ecall.encode := by
    rw [← hecall]
    exact paddrRead_ok _ hin (by decide)
  obtain ⟨s, mₑ, hexec, hguest, hzero⟩ := execOnce_insn hrve h0 hfetch
    { access := fun a l ha => by cases ha
      shift := fun j m hj _ => by cases hj }
  have hview : mₑ.mem.view = m.mem.view := congrArg (·.mem) hguest
  have hpc : mₑ.cpu.pc = k.trap := (congrArg (·.pc) hguest).trans hvec
  have hgpr : mₑ.cpu.gpr = m.cpu.gpr := congrArg (·.x) hguest
  have hcsr : mₑ.cpu.csr = { m.cpu.csr with mcause := 0xb, mepc := m.cpu.pc } :=
    congrArg (·.csr) hguest
  have hcode' : Placed cfg k.trap k.code mₑ.mem.view := hview ▸ hcode
  have hctx : mₑ.guest.read sp - BitVec.ofNat 32 CONTEXT_SIZE = c := by
    rw [guest_read hzero, hgpr, hc]
  have hsmooth := smooth_trapSave hframe hctx
  obtain ⟨ha0, hvec₀, hgprs, hcause, hepc, hout⟩ := saved_trapSave hctx
  obtain ⟨m₀, hsteps, hguest₀, hzero₀⟩ := execSteps_smooth hrve hzero hcode'
    (hpc.trans (slot_zero _).symm) (fun j i => code_save) hsmooth
  rw [← hguest₀] at ha0 hvec₀ hgprs hcause hepc hout
  have hpc₀ : m₀.cpu.pc = slot k.trap trapSave.length := by
    have h := (congrArg (·.pc) hguest₀).trans hsmooth.pc
    exact h.trans (congrArg (slot · trapSave.length) hpc)
  have hcode₀ : Placed cfg k.trap k.code m₀.mem.view := hcode'.congr fun b hb => by
    rw [show m₀.mem.view = (execs trapSave mₑ.guest).mem from congrArg (·.mem) hguest₀,
      hsmooth.mem hb]
    rfl
  obtain ⟨s₁, m₁, hexec₁, hguest₁, hzero₁⟩ := execOnce_insn hrve hzero₀
    (hcode₀.fetch hpc₀ code_call)
    (fits_base (fun a l ha => by cases ha) fun m => trivial)
  have hread₁ (r : Rv32.Reg) : m₁.cpu.gpr r =
      if r = 0 then 0 else if r = ra then m₀.cpu.pc + 4 else m₀.guest.read r := by
    rw [← guest_read hzero₁, hguest₁]
    exact read_write m₀.guest.toState ra r (m₀.cpu.pc + 4)
  have hview₁ : m₁.mem.view = m₀.mem.view := congrArg (·.mem) hguest₁
  refine ⟨m₁, ?_, ?_⟩
  · exact execSteps_trans (execSteps_one hexec) (execSteps_trans hsteps (execSteps_one hexec₁))
  · refine ⟨?_, ?_, ?_, ?_, fun n hn => ?_, ?_, ?_, fun b hb => ?_⟩
    · exact (congrArg (·.pc) hguest₁).trans (congrArg (· + offset k.disp) hpc₀)
    · rw [hread₁, if_neg (by decide), if_pos rfl, hpc₀, slot_succ]
    · rw [hread₁, if_neg (by decide), if_neg (by decide), ha0]
    · exact (congrArg (·.csr.mtvec) hguest₁).trans (hvec₀.trans (congrArg CSRs.mtvec hcsr))
    · rw [hview₁]
      exact (hgprs n hn).trans (by rw [guest_read hzero, hgpr])
    · rw [hview₁]
      exact hcause.trans (congrArg CSRs.mcause hcsr)
    · rw [hview₁]
      exact hepc.trans (congrArg CSRs.mepc hcsr)
    · rw [hview₁]
      exact (hout b hb).trans (congrFun hview b)

/-- After the return of `__am_irq_handle` the emulator loads the registers from the context that
was returned, and goes on at its `mepc`. -/
theorem execSteps_restore (hrve : cfg.RVE = false) (h0 : m.cpu.gpr 0 = 0)
    (hcode : Placed cfg k.trap k.code m.mem.view)
    (hpc : m.cpu.pc = slot k.trap (trapSave.length + 1)) (hframe : Frame cfg k c)
    (hc : m.cpu.gpr a0 = c) :
    ∃ m', execSteps cfg restoreSteps m = .ok m' ∧
      m'.cpu.pc = getSlot m.mem.view c (NR_REGS + 2) ∧
      (∀ n ∈ REGS, m'.cpu.gpr (xreg n) = getSlot m.mem.view c n) ∧
      m'.cpu.gpr sp = c + BitVec.ofNat 32 CONTEXT_SIZE ∧ m'.cpu.gpr 0 = 0 ∧
      m'.cpu.csr.mtvec = m.cpu.csr.mtvec ∧ m'.mem.view = m.mem.view := by
  have hctx : m.guest.read a0 = c := (guest_read h0 a0).trans hc
  have hsmooth := smooth_trapRestore hframe hctx
  obtain ⟨hgprs, hsp, hepc, hvec, hmem⟩ := restored_trapRestore hctx
  obtain ⟨m₀, hsteps, hguest₀, hzero₀⟩ := execSteps_smooth hrve h0 hcode hpc
    (fun j i hj => code_restore (by
      rw [List.getElem?_append_left (List.getElem?_eq_some_iff.mp hj).1, hj])) hsmooth
  rw [← hguest₀] at hgprs hsp hepc hvec hmem
  have hpc₀ : m₀.cpu.pc = slot k.trap (trapSave.length + 1 + trapRestore.length) := by
    have h := (congrArg (·.pc) hguest₀).trans hsmooth.pc
    rw [← slot_slot]
    exact h.trans (congrArg (slot · trapRestore.length) hpc)
  have hcode₀ : Placed cfg k.trap k.code m₀.mem.view := hcode.congr fun b _ => congrFun hmem b
  have hmret : k.code[trapSave.length + 1 + trapRestore.length]? = some .mret :=
    code_restore (by rw [List.getElem?_append_right le_rfl, Nat.sub_self]; rfl)
  obtain ⟨s₁, m', hexec', hguest', hzero'⟩ := execOnce_insn hrve hzero₀ (hcode₀.fetch hpc₀ hmret)
    { access := fun a l ha => by cases ha
      shift := fun j m hj _ => by cases hj }
  have hgpr' : m'.cpu.gpr = m₀.cpu.gpr := congrArg (·.x) hguest'
  refine ⟨m', execSteps_trans hsteps (execSteps_one hexec'), ?_, fun n hn => ?_, ?_, hzero', ?_, ?_⟩
  · exact (congrArg (·.pc) hguest').trans hepc
  · rw [hgpr', ← guest_read hzero₀]
    exact hgprs n hn
  · rw [hgpr', ← guest_read hzero₀]
    exact hsp
  · exact (congrArg (·.csr.mtvec) hguest').trans hvec
  · exact (congrArg (·.mem) hguest').trans hmem

end Trap

section Context

variable {cfg : Config} {c d : Word} {mem : Mem} {n : ℕ}

theorem vaddrRead_slot (h : InMem cfg c CONTEXT_SIZE) (hn : n < NR_REGS + 4) (mem : Mem) :
    vaddrRead cfg mem (slot c n) 4 = .ok (getSlot mem.view c n) := by
  have hin : InMem cfg (slot c n) 4 := h.sub (by rw [← context_slots]; omega)
  exact paddrRead_ok mem hin (by decide)

theorem vaddrWrite_slot (h : InMem cfg c CONTEXT_SIZE) (hn : n < NR_REGS + 4) (mem : Mem)
    (d : Word) : ∃ mem', vaddrWrite cfg mem (slot c n) 4 d = .ok mem' ∧
      mem'.view = setSlot mem.view c n d := by
  have hin : InMem cfg (slot c n) 4 := h.sub (by rw [← context_slots]; omega)
  exact paddrWrite_ok mem d hin (by decide)

/-- The event of an `ecall` is `EVENT_YIELD`, and its context is moved past the instruction. -/
theorem irqEvent_ok (h : InMem cfg c CONTEXT_SIZE) (hcause : getSlot mem.view c NR_REGS = 0xb) :
    ∃ mem', irqEvent cfg c mem = .ok (yieldEvent, mem') ∧ mem'.view =
      setSlot mem.view c (NR_REGS + 2) (getSlot mem.view c (NR_REGS + 2) + 4) := by
  obtain ⟨mem', hwrite, hview⟩ := vaddrWrite_slot h (show NR_REGS + 2 < NR_REGS + 4 by decide) mem
    (getSlot mem.view c (NR_REGS + 2) + 4)
  refine ⟨mem', ?_, hview⟩
  simp only [irqEvent, mcauseOf, mepcOf, vaddrRead_slot h (show NR_REGS < NR_REGS + 4 by decide),
    vaddrRead_slot h (show NR_REGS + 2 < NR_REGS + 4 by decide), hcause, hwrite, bind, Except.bind,
    if_true]
  rfl

theorem clear_ok (h : InMem cfg c CONTEXT_SIZE) {ns : List ℕ} (hns : ∀ n ∈ ns, n < NR_REGS)
    (mem : Mem) :
    ∃ mem', ns.foldlM (fun mem i => vaddrWrite cfg mem (gprOf c i) 4 0) mem = .ok mem' ∧
      mem'.view = setSlots mem.view c (fun _ => 0) ns := by
  induction ns generalizing mem with
  | nil => exact ⟨mem, rfl, rfl⟩
  | cons n ns ih =>
    obtain ⟨mem₁, hwrite, hview⟩ := vaddrWrite_slot h
      (show n < NR_REGS + 4 from (hns n List.mem_cons_self).trans (by decide)) mem 0
    obtain ⟨mem', hrest, hview'⟩ := ih (fun p hp => hns p (List.mem_cons_of_mem n hp)) mem₁
    refine ⟨mem', ?_, ?_⟩
    · rw [List.foldlM_cons, gprOf, hwrite]
      exact hrest
    · rw [hview', hview]
      rfl

/-- What `kcontext` leaves in memory. -/
structure Made (c entry arg : Word) (v v' : Word → Byte) : Prop where
  gpr : ∀ n < NR_REGS, getSlot v' c n = if n = 10 then arg else 0
  mepc : getSlot v' c (NR_REGS + 2) = entry
  mem : ∀ b, ¬ (b - c).toNat < CONTEXT_SIZE → v' b = v b

theorem kcontext_ok {kstack : Area} (entry arg : Word)
    (hc : kstack.stop - 4 - BitVec.ofNat 32 sizeofContext = c) (h : InMem cfg c CONTEXT_SIZE)
    (mem : Mem) :
    ∃ mem', kcontext cfg mem kstack entry arg = .ok (c, mem') ∧
      Made c entry arg mem.view mem'.view := by
  obtain ⟨mem₁, hw₁, hv₁⟩ := vaddrWrite_slot h (show NR_REGS < NR_REGS + 4 by decide) mem 0xb
  obtain ⟨mem₂, hw₂, hv₂⟩ :=
    vaddrWrite_slot h (show NR_REGS + 1 < NR_REGS + 4 by decide) mem₁ 0x1800
  obtain ⟨mem₃, hw₃, hv₃⟩ :=
    vaddrWrite_slot h (show NR_REGS + 2 < NR_REGS + 4 by decide) mem₂ entry
  obtain ⟨mem₄, hw₄, hv₄⟩ := clear_ok h
    (fun n hn => List.mem_range.mp hn : ∀ n ∈ List.range NR_REGS, n < NR_REGS) mem₃
  obtain ⟨mem₅, hw₅, hv₅⟩ := vaddrWrite_slot h (show 10 < NR_REGS + 4 by decide) mem₄ arg
  have hsize : ∀ n ∈ List.range NR_REGS, 4 * n + 4 ≤ 2 ^ 32 := fun n hn => by
    have hlt : n < 32 := List.mem_range.mp hn
    omega
  refine ⟨mem₅, ?_, fun n hn => ?_, ?_, fun b hb => ?_⟩
  · simp only [kcontext, hc, mcauseOf, mstatusOf, mepcOf, hw₁, hw₂, hw₃, hw₄, bind, Except.bind]
    rw [gprOf, hw₅]
    rfl
  · have hn' : n < 32 := hn
    rw [hv₅]
    by_cases hten : n = 10
    · rw [hten, getSlot_setSlot_self, if_pos rfl]
    · rw [getSlot_setSlot_ne (Ne.symm hten) (by decide) (by omega), hv₄,
        getSlot_setSlots hsize (by omega), if_pos (List.mem_range.mpr hn), if_neg hten]
  · rw [hv₅, getSlot_setSlot_ne (by decide) (by decide) (by decide), hv₄,
      getSlot_setSlots hsize (by decide), if_neg (by decide), hv₃, getSlot_setSlot_self]
  · rw [← context_slots] at hb
    rw [hv₅, setSlot_out (by decide) hb, hv₄,
      setSlots_out (fun i hi => (List.mem_range.mp hi).trans (by decide)) hb, hv₃,
      setSlot_out (by decide) hb, hv₂, setSlot_out (by decide) hb, hv₁,
      setSlot_out (by decide) hb]

end Context

end Ysyx.Am.Cte
