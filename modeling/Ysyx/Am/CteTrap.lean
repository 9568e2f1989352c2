import Ysyx.Am.Cte

/-! What `__am_asm_trap` does: the part up to the call of `__am_irq_handle` lays a context out
below the stack pointer, and the part after it takes the registers from a context. -/

namespace Ysyx.Am.Cte

open Bytes Nemu Rv32

@[simp] theorem read_write (s : State) (r q : Rv32.Reg) (v : Word) :
    (s.write r v).read q = if q = 0 then 0 else if q = r then v else s.read q := by
  simp only [State.read, State.write]
  split_ifs <;> rfl

@[simp] theorem write_mem (s : State) (r : Rv32.Reg) (v : Word) : (s.write r v).mem = s.mem := rfl
@[simp] theorem next_read (s : State) (r : Rv32.Reg) : s.next.read r = s.read r := rfl
@[simp] theorem next_mem (s : State) : s.next.mem = s.mem := rfl
def storeSlot (s : State) (c : Word) (n : ℕ) (d : Word) : State :=
  { s with mem := setSlot s.mem c n d }

@[simp] theorem storeSlot_read (s : State) (c : Word) (n : ℕ) (d : Word) (r : Rv32.Reg) :
    (storeSlot s c n d).read r = s.read r := rfl
@[simp] theorem storeSlot_mem (s : State) (c : Word) (n : ℕ) (d : Word) :
    (storeSlot s c n d).mem = setSlot s.mem c n d := rfl
theorem signExtend_offset {n : ℕ} (hn : n < NR_REGS + 4) :
    (BitVec.ofNat 12 (n * XLEN)).signExtend 32 = BitVec.ofNat 32 (4 * n) := by
  rw [NR_REGS] at hn
  have hlt : 4 * n < 2 ^ 12 := by omega
  have hmsb : (BitVec.ofNat 12 (4 * n)).msb = false := by
    rw [BitVec.msb_eq_false_iff_two_mul_lt, BitVec.toNat_ofNat, Nat.mod_eq_of_lt hlt]
    omega
  rw [XLEN, Nat.mul_comm, BitVec.signExtend_eq_setWidth_of_msb_false hmsb,
    BitVec.setWidth_ofNat_of_le_of_lt (by decide) hlt]

/-- The frame of a context at `c`: in memory, and with no byte of `__am_asm_trap` in it. -/
structure Frame (cfg : Config) (k : Kernel) (c : Word) : Prop where
  inMem : InMem cfg c CONTEXT_SIZE
  apart : ∀ b, (b - c).toNat < CONTEXT_SIZE → ¬ k.Text b

section Insns

variable {cfg : Config} {k : Kernel} {c : Word} {g : Guest} {n : ℕ} {r base : Rv32.Reg}

theorem exec_STORE (hn : n < NR_REGS + 4) :
    (STORE r (n * XLEN) base).exec g =
      ⟨(storeSlot g.toState (g.read base) n (g.read r)).next, g.csr⟩ := by
  simp only [STORE, Insn.exec, Instr.exec, signExtend_offset hn, SOp.size, storeSlot, setSlot,
    slot]

theorem exec_LOAD (hn : n < NR_REGS + 4) :
    (LOAD r (n * XLEN) base).exec g =
      ⟨(g.write r (getSlot g.mem (g.read base) n)).next, g.csr⟩ := by
  simp only [LOAD, Insn.exec, Instr.exec, signExtend_offset hn, LOp.size, LOp.extend, getSlot, slot]

theorem exec_addi {imm : ℤ} : (addi r base imm).exec g =
    ⟨(g.write r (g.read base + (BitVec.ofInt 12 imm).signExtend 32)).next, g.csr⟩ := rfl

theorem exec_csrr {q : CsrName} :
    (csrr r q).exec g = ⟨(g.write r (g.csr.get q)).next, g.csr⟩ := by
  have hzero : g.csr.get q ||| g.read 0 = g.csr.get q := BitVec.or_zero
  rw [csrr, Insn.exec, hzero]
  cases q <;> rfl

theorem exec_csrw {q : CsrName} : (csrw q r).exec g =
    ⟨(g.write 0 (g.csr.get q)).next, g.csr.set q (g.read r)⟩ := rfl

theorem exec_lui {imm : BitVec 20} :
    (Insn.base (.lui r imm)).exec g = ⟨(g.write r (imm ++ 0#12)).next, g.csr⟩ := rfl

theorem exec_or {r' : Rv32.Reg} : (Insn.base (.op .or r base r')).exec g =
    ⟨(g.write r (g.read base ||| g.read r')).next, g.csr⟩ := rfl

theorem Frame.slot (h : Frame cfg k c) (hn : n < NR_REGS + 4) : InMem cfg (slot c n) 4 := by
  refine h.inMem.sub ?_
  rw [CONTEXT_SIZE, XLEN]
  omega

theorem fits_base {i : Instr} (haccess : ∀ a l, i.access g.toState = some (a, l) → InMem cfg a l)
    (hshift : ∀ m, ShiftInRange m i) : (Insn.base i).Fits cfg g where
  access := haccess
  shift j m hj _ := by
    cases hj
    exact hshift m

theorem smooth_STORE (h : Frame cfg k c) (hc : g.read base = c) (hn : n < NR_REGS + 4) :
    (STORE r (n * XLEN) base).Smooth cfg k.trap k.code.length g where
  fits := fits_base (fun a l ha => by
    simp only [Instr.access, signExtend_offset hn, hc] at ha
    cases ha
    exact h.slot hn) fun _ => trivial
  pc := by rw [exec_STORE hn]; rfl
  mem b hb := by
    rw [exec_STORE hn, hc]
    exact setSlot_out (n := NR_REGS + 4) hn fun hin => h.apart b (by
      rw [CONTEXT_SIZE, XLEN]
      omega) hb

theorem smooth_LOAD (h : Frame cfg k c) (hc : g.read base = c) (hn : n < NR_REGS + 4) :
    (LOAD r (n * XLEN) base).Smooth cfg k.trap k.code.length g where
  fits := fits_base (fun a l ha => by
    simp only [Instr.access, signExtend_offset hn, hc] at ha
    cases ha
    exact h.slot hn) fun _ => trivial
  pc := by rw [exec_LOAD hn]; rfl
  mem b hb := by rw [exec_LOAD hn]; rfl

theorem smooth_base {i : Instr} (haccess : i.access g.toState = none)
    (hshift : ∀ m, ShiftInRange m i) (hpc : (i.exec g.toState).pc = g.pc + 4)
    (hmem : (i.exec g.toState).mem = g.mem) :
    (Insn.base i).Smooth cfg k.trap k.code.length g where
  fits := fits_base (fun a l ha => by rw [haccess] at ha; cases ha) hshift
  pc := hpc
  mem b _ := congrFun hmem b

theorem smooth_addi {imm : ℤ} : (addi r base imm).Smooth cfg k.trap k.code.length g :=
  smooth_base rfl (fun _ => trivial) rfl rfl

theorem smooth_csrr {q : CsrName} : (csrr r q).Smooth cfg k.trap k.code.length g where
  fits := { access := fun a l ha => by cases ha
            shift := fun j m hj _ => by cases hj }
  pc := rfl
  mem _ _ := rfl

theorem smooth_csrw {q : CsrName} : (csrw q r).Smooth cfg k.trap k.code.length g where
  fits := { access := fun a l ha => by cases ha
            shift := fun j m hj _ => by cases hj }
  pc := rfl
  mem _ _ := rfl

end Insns

section Loops

variable {cfg : Config} {k : Kernel} {c : Word} {g : Guest} {ns : List ℕ}

theorem execs_PUSH (hns : ∀ n ∈ ns, n < NR_REGS) :
    execs (ns.map PUSH) g =
      ⟨⟨g.x, slot g.pc ns.length, setSlots g.mem (g.read sp) (fun n => g.read (xreg n)) ns⟩,
        g.csr⟩ := by
  induction ns generalizing g with
  | nil => simp [setSlots]
  | cons n ns ih =>
    have hn : n < NR_REGS := hns n List.mem_cons_self
    rw [List.map_cons, execs_cons, PUSH, exec_STORE (by omega),
      ih fun p hp => hns p (List.mem_cons_of_mem n hp)]
    simp only [State.next, storeSlot, setSlots, List.foldl_cons, List.length_cons]
    rw [show g.pc + 4 = slot g.pc 1 from rfl, slot_slot, Nat.add_comm]
    rfl

theorem smooth_PUSH (h : Frame cfg k c) (hc : g.read sp = c) (hns : ∀ n ∈ ns, n < NR_REGS) :
    Smooth cfg k.trap k.code.length (ns.map PUSH) g := by
  induction ns generalizing g with
  | nil => trivial
  | cons n ns ih =>
    have hn : n < NR_REGS := hns n List.mem_cons_self
    refine ⟨smooth_STORE h hc (by omega), ih ?_ fun p hp => hns p (List.mem_cons_of_mem n hp)⟩
    rw [PUSH, exec_STORE (by omega)]
    exact hc

theorem xreg_inj {n p : ℕ} (hn : n < NR_REGS) (hp : p < NR_REGS) : xreg n = xreg p ↔ n = p := by
  rw [NR_REGS] at hn hp
  rw [xreg, xreg, ← BitVec.toNat_inj, BitVec.toNat_ofNat, BitVec.toNat_ofNat,
    Nat.mod_eq_of_lt (show n < 2 ^ 5 by omega), Nat.mod_eq_of_lt (show p < 2 ^ 5 by omega)]

theorem execs_POP (hc : g.read sp = c) (hns : ∀ n ∈ ns, n < NR_REGS ∧ n ≠ 0 ∧ n ≠ 2) :
    (∀ q, (execs (ns.map POP) g).read q =
      if q.toNat ∈ ns then getSlot g.mem c q.toNat else g.read q) ∧
    (execs (ns.map POP) g).csr = g.csr ∧ (execs (ns.map POP) g).mem = g.mem := by
  induction ns generalizing g with
  | nil => simp
  | cons n ns ih =>
    obtain ⟨hn, hzero, hsp⟩ := hns n List.mem_cons_self
    have hne : xreg n ≠ sp := fun h => hsp ((xreg_inj hn (by decide)).mp h)
    rw [List.map_cons, execs_cons, POP, exec_LOAD (by omega), hc]
    obtain ⟨hread, hcsr, hmem⟩ := ih
      (g := ⟨(g.write (xreg n) (getSlot g.mem c n)).next, g.csr⟩)
      (by rw [next_read, read_write, if_neg (by decide), if_neg (Ne.symm hne), hc])
      fun p hp => hns p (List.mem_cons_of_mem n hp)
    refine ⟨fun q => ?_, hcsr, hmem⟩
    rw [hread q, next_mem, write_mem, next_read, read_write]
    by_cases hq : q.toNat = n
    · have hqn : q = xreg n := by
        rw [xreg, ← hq, BitVec.ofNat_toNat, BitVec.setWidth_eq]
      have hq0 : q ≠ 0 := by
        rintro rfl
        exact hzero hq.symm
      rw [if_neg hq0, if_pos hqn, hq, if_pos List.mem_cons_self, ite_self]
    · have hqn : q ≠ xreg n := by
        rintro rfl
        rw [NR_REGS] at hn
        exact hq (by rw [xreg, BitVec.toNat_ofNat, Nat.mod_eq_of_lt (show n < 2 ^ 5 by omega)])
      rw [if_neg hqn]
      simp only [List.mem_cons, hq, false_or]
      split_ifs with hmem hq0
      · rfl
      · rw [hq0]
        rfl
      · rfl

theorem smooth_POP (h : Frame cfg k c) (hc : g.read sp = c)
    (hns : ∀ n ∈ ns, n < NR_REGS ∧ n ≠ 2) :
    Smooth cfg k.trap k.code.length (ns.map POP) g := by
  induction ns generalizing g with
  | nil => trivial
  | cons n ns ih =>
    obtain ⟨hn, hsp⟩ := hns n List.mem_cons_self
    have hne : sp ≠ xreg n := fun h => hsp ((xreg_inj hn (by decide)).mp h.symm)
    refine ⟨smooth_LOAD h hc (by omega), ih ?_ fun p hp => hns p (List.mem_cons_of_mem n hp)⟩
    rw [POP, exec_LOAD (by omega), next_read, read_write, if_neg (by decide), if_neg hne, hc]

end Loops

theorem mem_REGS {n : ℕ} : n ∈ REGS ↔ n < NR_REGS ∧ n ≠ 0 ∧ n ≠ 2 := by
  constructor
  · intro h
    simp only [REGS, List.mem_cons, List.not_mem_nil, or_false] at h
    rw [NR_REGS]
    omega
  · rintro ⟨hlt, hzero, hsp⟩
    rw [NR_REGS] at hlt
    simp only [REGS, List.mem_cons, List.not_mem_nil, or_false]
    omega

theorem addi_neg (v : Word) :
    v + (BitVec.ofInt 12 (-CONTEXT_SIZE)).signExtend 32 = v - BitVec.ofNat 32 CONTEXT_SIZE := by
  rw [show (BitVec.ofInt 12 (-CONTEXT_SIZE)).signExtend 32 = -BitVec.ofNat 32 CONTEXT_SIZE from rfl,
    sub_eq_add_neg]

section Halves

variable {cfg : Config} {k : Kernel} {c : Word} {g : Guest}

structure Saved (c : Word) (g g' : Guest) : Prop where
  a0 : g'.read a0 = c
  mtvec : g'.csr.mtvec = g.csr.mtvec
  gpr : ∀ n ∈ REGS, getSlot g'.mem c n = g.read (xreg n)
  mcause : getSlot g'.mem c NR_REGS = g.csr.mcause
  mepc : getSlot g'.mem c (NR_REGS + 2) = g.csr.mepc
  mem : ∀ b, ¬ (b - c).toNat < CONTEXT_SIZE → g'.mem b = g.mem b

/-- The CSRs go into the slots after those of the registers, and the context into `a0`. -/
theorem execs_saveCsrs (hc : g.read sp = c) :
    (execs saveCsrs g).read a0 = c ∧ (execs saveCsrs g).csr.mtvec = g.csr.mtvec ∧
    (execs saveCsrs g).mem =
      setSlot (setSlot (setSlot g.mem c NR_REGS g.csr.mcause) c (NR_REGS + 1) g.csr.mstatus)
        c (NR_REGS + 2) g.csr.mepc := by
  subst hc
  simp only [saveCsrs, OFFSET_CAUSE, OFFSET_STATUS, OFFSET_EPC, execs_cons, execs_nil, exec_csrr,
    exec_STORE (show NR_REGS + 0 < NR_REGS + 4 by decide),
    exec_STORE (show NR_REGS + 1 < NR_REGS + 4 by decide),
    exec_STORE (show NR_REGS + 2 < NR_REGS + 4 by decide), exec_csrw, exec_lui, exec_or, mv,
    exec_addi, next_mem, write_mem, storeSlot_mem, next_read, read_write, storeSlot_read]
  simp [sp, t0, t1, t2, a0, CSRs.get, CSRs.set]

theorem smooth_saveCsrs (h : Frame cfg k c) (hc : g.read sp = c) :
    Smooth cfg k.trap k.code.length saveCsrs g := by
  have ht (r : Rv32.Reg) (q : CsrName) (hr : sp ≠ r) {g : Guest} (hg : g.read sp = c) :
      ((csrr r q).exec g).read sp = c := by
    rw [exec_csrr, next_read, read_write, if_neg (by decide), if_neg hr, hg]
  have hs (r : Rv32.Reg) {n : ℕ} (hn : n < NR_REGS + 4) {g : Guest} (hg : g.read sp = c) :
      ((STORE r (n * XLEN) sp).exec g).read sp = c := by
    rw [exec_STORE hn, next_read, storeSlot_read, hg]
  have h0 := ht t2 .mepc (by decide) (ht t1 .mstatus (by decide) (ht t0 .mcause (by decide) hc))
  have h1 := hs (n := NR_REGS + 0) t0 (by decide) h0
  have h2 := hs (n := NR_REGS + 1) t1 (by decide) h1
  exact ⟨smooth_csrr, smooth_csrr, smooth_csrr, smooth_STORE h h0 (by decide),
    smooth_STORE h h1 (by decide), smooth_STORE h h2 (by decide),
    smooth_base rfl (fun _ => trivial) rfl rfl, smooth_base rfl (fun _ => trivial) rfl rfl,
    smooth_csrw, smooth_addi, trivial⟩

theorem smooth_trapSave (h : Frame cfg k c) (hc : g.read sp - BitVec.ofNat 32 CONTEXT_SIZE = c) :
    Smooth cfg k.trap k.code.length trapSave g := by
  have hsp : ((addi sp sp (-CONTEXT_SIZE)).exec g).read sp = c := by
    rw [exec_addi, next_read, read_write, if_neg (by decide), if_pos rfl, addi_neg, hc]
  refine ⟨smooth_addi, smooth_append.mpr ⟨smooth_PUSH h hsp fun n hn => (mem_REGS.mp hn).1, ?_⟩⟩
  rw [execs_PUSH fun n hn => (mem_REGS.mp hn).1]
  exact smooth_saveCsrs h hsp

/-- The guest once the stack pointer has been moved and the registers have been pushed. -/
structure Pushed (c : Word) (g g' : Guest) : Prop where
  sp : g'.read sp = c
  csr : g'.csr = g.csr
  gpr : ∀ n ∈ REGS, getSlot g'.mem c n = g.read (xreg n)
  mem : ∀ b, ¬ (b - c).toNat < CONTEXT_SIZE → g'.mem b = g.mem b

theorem context_slots : 4 * (NR_REGS + 4) = CONTEXT_SIZE := rfl

theorem pushed_PUSH (hc : g.read sp - BitVec.ofNat 32 CONTEXT_SIZE = c) :
    Pushed c g (execs (REGS.map PUSH) ((addi sp sp (-CONTEXT_SIZE)).exec g)) := by
  have hread {q : Rv32.Reg} (hq0 : q ≠ 0) : ((addi sp sp (-CONTEXT_SIZE)).exec g).read q =
      if q = sp then c else g.read q := by
    rw [exec_addi, next_read, read_write, addi_neg, hc, if_neg hq0]
  have hsp := (hread (q := sp) (by decide)).trans (if_pos rfl)
  rw [execs_PUSH fun n hn => (mem_REGS.mp hn).1, hsp]
  refine ⟨hsp, rfl, fun n hn => ?_, fun b hb => ?_⟩
  · obtain ⟨hlt, hzero, htwo⟩ := mem_REGS.mp hn
    have hsize {j : ℕ} (hj : j < NR_REGS) : 4 * j + 4 ≤ 2 ^ 32 := by
      rw [NR_REGS] at hj
      omega
    have hn0 : xreg n ≠ 0 := fun h => hzero ((xreg_inj hlt (by decide)).mp h)
    have hn2 : xreg n ≠ sp := fun h => htwo ((xreg_inj hlt (by decide)).mp h)
    rw [getSlot_setSlots (fun p hp => hsize (mem_REGS.mp hp).1) (hsize hlt), if_pos hn, hread hn0,
      if_neg hn2]
  · exact setSlots_out (n := NR_REGS + 4) (fun i hi => by
      have := (mem_REGS.mp hi).1
      omega) (by rwa [context_slots])

theorem saved_trapSave (hc : g.read sp - BitVec.ofNat 32 CONTEXT_SIZE = c) :
    Saved c g (execs trapSave g) := by
  have hpush := pushed_PUSH hc
  have hexec : execs trapSave g =
      execs saveCsrs (execs (REGS.map PUSH) ((addi sp sp (-CONTEXT_SIZE)).exec g)) := by
    rw [trapSave, execs_cons, execs_append]
  obtain ⟨ha0, hvec, hmem⟩ := execs_saveCsrs hpush.sp
  rw [hpush.csr] at hvec hmem
  rw [hexec]
  refine ⟨ha0, hvec, fun n hn => ?_, ?_, ?_, fun b hb => ?_⟩
  · have hlt := (mem_REGS.mp hn).1
    rw [NR_REGS] at hlt
    rw [hmem, NR_REGS, getSlot_setSlot_ne (by omega) (by omega) (by omega),
      getSlot_setSlot_ne (by omega) (by omega) (by omega),
      getSlot_setSlot_ne (by omega) (by omega) (by omega), hpush.gpr n hn]
  · rw [hmem, getSlot_setSlot_ne (by decide) (by decide) (by decide),
      getSlot_setSlot_ne (by decide) (by decide) (by decide), getSlot_setSlot_self]
  · rw [hmem, getSlot_setSlot_self]
  · rw [← context_slots] at hb
    rw [hmem, setSlot_out (by decide) hb, setSlot_out (by decide) hb, setSlot_out (by decide) hb]
    exact hpush.mem b hb

/-- What the part of the trap after the call leaves, when the context at `c` was returned. -/
structure Restored (c : Word) (g g' : Guest) : Prop where
  gpr : ∀ n ∈ REGS, g'.read (xreg n) = getSlot g.mem c n
  sp : g'.read sp = c + BitVec.ofNat 32 CONTEXT_SIZE
  mepc : g'.csr.mepc = getSlot g.mem c (NR_REGS + 2)
  mtvec : g'.csr.mtvec = g.csr.mtvec
  mem : g'.mem = g.mem

theorem addi_zero (v : Word) : v + (BitVec.ofInt 12 0).signExtend 32 = v := by
  rw [show (BitVec.ofInt 12 0).signExtend 32 = 0#32 from rfl, BitVec.add_zero]

theorem execs_restoreCsrs (hc : g.read a0 = c) :
    (execs restoreCsrs g).read sp = c ∧
    (execs restoreCsrs g).csr.mepc = getSlot g.mem c (NR_REGS + 2) ∧
    (execs restoreCsrs g).csr.mtvec = g.csr.mtvec ∧ (execs restoreCsrs g).mem = g.mem := by
  subst hc
  simp -implicitDefEqProofs only [restoreCsrs, OFFSET_STATUS, OFFSET_EPC, execs_cons, execs_nil,
    mv, exec_addi, exec_LOAD (show NR_REGS + 1 < NR_REGS + 4 by decide),
    exec_LOAD (show NR_REGS + 2 < NR_REGS + 4 by decide), exec_csrw, next_mem, write_mem, next_read,
    read_write, addi_zero]
  simp [sp, t1, t2, a0, CSRs.set]

theorem smooth_restoreCsrs (h : Frame cfg k c) (hc : g.read a0 = c) :
    Smooth cfg k.trap k.code.length restoreCsrs g := by
  have h0 : ((mv sp a0).exec g).read sp = c := by
    rw [mv, exec_addi, next_read, read_write, if_neg (by decide), if_pos rfl, addi_zero, hc]
  have h1 : ((LOAD t1 ((NR_REGS + 1) * XLEN) sp).exec ((mv sp a0).exec g)).read sp = c := by
    rw [exec_LOAD (by decide), next_read, read_write, if_neg (by decide), if_neg (by decide), h0]
  exact ⟨smooth_addi, smooth_LOAD h h0 (by decide), smooth_LOAD h h1 (by decide), smooth_csrw,
    smooth_csrw, trivial⟩

theorem smooth_trapRestore (h : Frame cfg k c) (hc : g.read a0 = c) :
    Smooth cfg k.trap k.code.length trapRestore g := by
  have hsp := (execs_restoreCsrs hc).1
  have hpops := smooth_POP h hsp fun n hn => ⟨(mem_REGS.mp hn).1, (mem_REGS.mp hn).2.2⟩
  exact smooth_append.mpr ⟨smooth_restoreCsrs h hc, smooth_append.mpr ⟨hpops, smooth_addi, trivial⟩⟩

theorem restored_trapRestore (hc : g.read a0 = c) : Restored c g (execs trapRestore g) := by
  obtain ⟨hsp, hmepc, hvec, hmem⟩ := execs_restoreCsrs hc
  obtain ⟨hread, hcsr, hmem'⟩ := execs_POP hsp (fun n hn => mem_REGS.mp hn : ∀ n ∈ REGS, _)
  have hexec : execs trapRestore g =
      (addi sp sp CONTEXT_SIZE).exec (execs (REGS.map POP) (execs restoreCsrs g)) := by
    rw [trapRestore, execs_append, execs_append, execs_cons, execs_nil]
  rw [hexec, exec_addi]
  refine ⟨fun n hn => ?_, ?_, ?_, ?_, ?_⟩
  · obtain ⟨hlt, hzero, htwo⟩ := mem_REGS.mp hn
    have hn0 : xreg n ≠ 0 := fun h => hzero ((xreg_inj hlt (by decide)).mp h)
    have hn2 : xreg n ≠ sp := fun h => htwo ((xreg_inj hlt (by decide)).mp h)
    have hnat : (xreg n).toNat = n := by
      rw [NR_REGS] at hlt
      rw [xreg, BitVec.toNat_ofNat, Nat.mod_eq_of_lt (by omega)]
    rw [next_read, read_write, if_neg hn0, if_neg hn2, hread, hnat, if_pos hn, hmem]
  · rw [next_read, read_write, if_neg (by decide), if_pos rfl, hread, if_neg (by decide), hsp]
    rfl
  · exact (congrArg CSRs.mepc hcsr).trans hmepc
  · exact (congrArg CSRs.mtvec hcsr).trans hvec
  · rw [next_mem, write_mem, hmem', hmem]

end Halves

end Ysyx.Am.Cte
