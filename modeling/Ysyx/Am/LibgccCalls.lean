import Ysyx.Am.Libgcc

/-! The entries of `libgcc/div.S` around `__udivsi3`, and a call of one of the routines on NEMU:
the emulator comes back to the caller with the value that an M extension instruction gives. -/

namespace Ysyx.Am.Libgcc

open Bytes Nemu Rv32 Rv32.Asm

/-- What the entry computes. -/
def DivLabel.op : DivLabel → Option MOp
  | .divsi3 => some .div
  | .udivsi3 => some .divu
  | .umodsi3 => some .remu
  | .modsi3 => some .rem
  | _ => none

/-- The registers that the entries write: an inner call goes through `ra` and `t0`. -/
def divRegs : List Rv32.Reg := ra :: t0 :: argRegs

section Signs

variable {a b : Word}

theorem neg_ne_zero (h : b ≠ 0) : -b ≠ 0 := mt BitVec.neg_eq_zero_iff.mp h

theorem eval_div_of_nonneg (ha : a.msb = false) (hb : b.msb = false) :
    MOp.eval .div a b = MOp.eval .divu a b := by
  rw [MOp.eval, MOp.eval, ofInt_tdiv, ofNat_div, BitVec.sdiv_eq, ha, hb]
  rfl

theorem eval_div_of_neg_right (ha : a.msb = false) (hb : b.msb = true) :
    MOp.eval .div a b = -MOp.eval .divu a (-b) := by
  have hb0 : b ≠ 0 := fun h => by simp [h] at hb
  rw [MOp.eval, MOp.eval, if_neg hb0, if_neg (neg_ne_zero hb0), ofInt_tdiv,
    ofNat_div, BitVec.sdiv_eq, ha, hb]
  rfl

theorem eval_div_of_neg_left (ha : a.msb = true) (hb : b.msb = false) (hb0 : b ≠ 0) :
    MOp.eval .div a b = -MOp.eval .divu (-a) b := by
  rw [MOp.eval, MOp.eval, if_neg hb0, if_neg hb0, ofInt_tdiv, ofNat_div, BitVec.sdiv_eq, ha, hb]
  rfl

theorem eval_div_of_neg (ha : a.msb = true) (hb : b.msb = true ∨ b = 0) :
    MOp.eval .div a b = MOp.eval .divu (-a) (-b) := by
  rcases hb with hb | rfl
  · have hb0 : b ≠ 0 := fun h => by simp [h] at hb
    rw [MOp.eval, MOp.eval, if_neg hb0, if_neg (neg_ne_zero hb0), ofInt_tdiv,
      ofNat_div, BitVec.sdiv_eq, ha, hb]
    rfl
  · rw [MOp.eval, MOp.eval, if_pos rfl, if_pos (by decide)]

/-- The remainder has the sign of the dividend. -/
theorem eval_rem (a b : Word) : MOp.eval .rem a b =
    if a.msb then -MOp.eval .remu (-a) b.abs else MOp.eval .remu a b.abs := by
  by_cases hb0 : b = 0
  · have habs : BitVec.abs (0 : Word) = 0 := by decide
    rw [hb0, habs, MOp.eval, MOp.eval, MOp.eval, if_pos rfl, if_pos rfl, if_pos rfl,
      BitVec.neg_neg, ite_self]
  · have habs : b.abs ≠ 0 := by
      rw [BitVec.abs]
      split_ifs
      · exact neg_ne_zero hb0
      · exact hb0
    rw [MOp.eval, MOp.eval, MOp.eval, if_neg hb0, if_neg habs, if_neg habs, ofInt_tmod, ofNat_mod,
      ofNat_mod, BitVec.srem_eq, BitVec.abs]
    cases a.msb <;> cases b.msb <;> rfl

theorem slt_zero (v : Word) : v.slt 0 = v.msb := BitVec.slt_zero_eq_msb

theorem zero_sle (v : Word) : (0 : Word).sle v = !v.msb := BitVec.zero_sle_eq_not_msb

/-- `bgtz` -/
theorem zero_slt (v : Word) : (0 : Word).slt v = true ↔ v.msb = false ∧ v ≠ 0 := by
  rw [BitVec.slt_iff_toInt_lt, BitVec.msb_eq_toInt, decide_eq_false_iff_not, ne_eq,
    ← BitVec.toInt_inj]
  change 0 < v.toInt ↔ _ ∧ ¬ v.toInt = 0
  omega

end Signs

section Entries

variable {a : Word} {x y : Regs} {m : Word → Byte}

/-- The registers before an entry calls `__udivsi3`: the return address is in `t0`. -/
structure Saved (x y : Regs) : Prop where
  back : y.get t0 = x.get ra
  kept : ∀ r, r ∉ divRegs → y.get r = x.get r

theorem Saved.mv (hy : ∀ r, r ∉ argRegs → y.get r = x.get r) :
    Saved x (alus [.opImm .addi t0 ra 0] y) where
  back := by
    rw [← hy ra (by decide)]
    exact (Regs.get_set_self _ _ (by decide)).trans (add_imm_zero _)
  kept r hr := by
    rw [divRegs, List.mem_cons, List.mem_cons, not_or, not_or] at hr
    rw [alus_kept [t0] rfl y (by simpa using hr.2.1), hy r hr.2.2]

theorem Saved.alus {part : List Instr} (h : Saved x y)
    (hpart : part.all fun i => i.dst ∈ argRegs) : Saved x (alus part y) where
  back := (alus_kept argRegs hpart y (by decide)).trans h.back
  kept r hr := by
    have hargs : r ∉ argRegs := fun hmem => hr (List.mem_cons_of_mem _ (List.mem_cons_of_mem _ hmem))
    rw [alus_kept argRegs hpart y hargs, h.kept r hr]

/-- The end of an entry that calls `__udivsi3` for the quotient and remainder. -/
theorem leads_tail {k : ℕ} {d : BitVec 20} {i : Instr} {v : Word} (ha : a.toNat % 4 = 0)
    (hcall : divCode[k]? = some (.jal ra d)) (hd : offset d = BitVec.ofInt 32 (4 * ((2 : ℕ) - k)))
    (hi : [i] <+: divCode.drop (k + 1)) (halu : i.isAlu) (hdst : i.dst = a0)
    (hjr : divCode[k + 2]? = some (.jalr 0 t0 0)) (hsaved : Saved x y)
    (hv : ∀ z : Regs, z.get a0 = MOp.eval .divu (y.get a0) (y.get a1) →
      z.get a1 = MOp.eval .remu (y.get a0) (y.get a1) → (i.alu z).get a0 = v) :
    Leads (CodeStep a divCode) ⟨y, slot a k, m⟩ (Returned x m divRegs v) := by
  refine leads_jal hcall hd (leads_udivsi3.bind ?_)
  rintro ⟨z, pc, mem⟩ ⟨⟨hpc, rfl, hq, hz⟩, hr⟩
  have hback : pc = slot a (k + 1) := by
    rw [← slot_and_not_one ha (k + 1)]
    exact hpc.trans (by rw [Regs.get_set_self _ _ (by decide)])
  have hkept {r : Rv32.Reg} (hra : r ≠ ra) (hargs : r ∉ argRegs) : Regs.get z r = y.get r :=
    (hz r hargs).trans (Regs.get_set_ne _ _ hra)
  rw [Regs.get_set_ne _ _ (by decide), Regs.get_set_ne _ _ (by decide)] at hq hr
  subst hback
  refine leads_alus [i] (by rw [List.all_cons, halu]; rfl) hi ?_
  have ht : (i.alu z).get t0 = x.get ra := by
    rw [alu_kept i z (by rw [hdst]; decide), hkept (by decide) (by decide), hsaved.back]
  refine leads_jr hjr (.here ⟨?_, rfl, ?_, fun r hr => ?_⟩)
  · exact congrArg (· &&& _) ht
  · exact (Regs.get_set_ne _ _ (by decide)).trans (hv z hq hr)
  · rw [divRegs, List.mem_cons, List.mem_cons, not_or, not_or] at hr
    obtain ⟨hra, hrt, hargs⟩ := hr
    have hra0 : r ≠ a0 := fun h => hargs (h ▸ by decide)
    by_cases hr0 : r = 0
    · rw [hr0, Regs.get_zero, Regs.get_zero]
    · refine (Regs.get_set_ne _ _ hr0).trans ?_
      rw [alus_cons, alus_nil, alu_kept i z (hdst ▸ hra0), hkept hra hargs]
      exact hsaved.kept r (by simp only [divRegs, List.mem_cons, hra, hrt, hargs, or_self, not_false_iff])

theorem alu_mv (z : Regs) : ((Instr.opImm .addi a0 a1 0).alu z).get a0 = z.get a1 :=
  (Regs.get_set_self _ _ (by decide)).trans (add_imm_zero _)

theorem alu_neg (z : Regs) {rd rs : Rv32.Reg} (hrd : rd ≠ 0) :
    ((Instr.op .sub rd 0 rs).alu z).get rd = -z.get rs := by
  refine (Regs.get_set_self _ _ hrd).trans ?_
  rw [Regs.get_zero]
  exact BitVec.zero_sub _

/-- From `.L12` on. -/
theorem leads_L12 (ha : a.toNat % 4 = 0) (hy : ∀ r, r ∉ argRegs → y.get r = x.get r) :
    Leads (CodeStep a divCode) ⟨y, slot a 29, m⟩
      (Returned x m divRegs (-MOp.eval .divu (y.get a0) (y.get a1))) := by
  have hk {r : Rv32.Reg} (hr : r ∉ [t0]) : (alus [.opImm .addi t0 ra 0] y).get r = y.get r :=
    alus_kept [t0] rfl y hr
  refine leads_alus [.opImm .addi t0 ra 0] rfl ⟨_, rfl⟩ ?_
  refine leads_tail (i := .op .sub a0 0 a0) ha rfl (by decide) ⟨_, rfl⟩ rfl rfl rfl (.mv hy)
    fun z hq _ => ?_
  rw [alu_neg z (by decide), hq, hk (by decide), hk (by decide)]

/-- `__umodsi3` -/
theorem leads_umodsi3 (ha : a.toNat % 4 = 0) :
    Leads (CodeStep a divCode) ⟨x, slot a 20, m⟩
      (Returned x m divRegs (MOp.eval .remu (x.get a0) (x.get a1))) := by
  have hk {r : Rv32.Reg} (hr : r ∉ [t0]) : (alus [.opImm .addi t0 ra 0] x).get r = x.get r :=
    alus_kept [t0] rfl x hr
  refine leads_alus [.opImm .addi t0 ra 0] rfl ⟨_, rfl⟩ ?_
  refine leads_tail (i := .opImm .addi a0 a1 0) ha rfl (by decide) ⟨_, rfl⟩ rfl rfl rfl
    (.mv fun _ _ => rfl) fun z _ hr => ?_
  rw [alu_mv, hr, hk (by decide), hk (by decide)]

/-- From `.L30` on. -/
theorem leads_L30 (ha : a.toNat % 4 = 0) (hy : Saved x y) :
    Leads (CodeStep a divCode) ⟨y, slot a 36, m⟩
      (Returned x m divRegs (MOp.eval .remu (y.get a0) (y.get a1))) :=
  leads_tail (i := .opImm .addi a0 a1 0) ha rfl (by decide) ⟨_, rfl⟩ rfl rfl rfl hy
    fun z _ hr => (alu_mv z).trans hr

/-- From `.L32` on. -/
theorem leads_L32 (ha : a.toNat % 4 = 0) (hy : Saved x y) :
    Leads (CodeStep a divCode) ⟨y, slot a 41, m⟩
      (Returned x m divRegs (-MOp.eval .remu (-y.get a0) (y.get a1))) := by
  refine leads_alus [.op .sub a0 0 a0] rfl ⟨_, rfl⟩ ?_
  refine leads_tail (i := .op .sub a0 0 a1) ha rfl (by decide) ⟨_, rfl⟩ rfl rfl rfl (hy.alus rfl)
    fun z _ hr => ?_
  rw [alu_neg z (by decide), hr, alus_cons, alus_nil, alu_neg y (by decide),
    alu_kept _ y (r := a1) (by decide)]

/-- `__modsi3` -/
theorem leads_modsi3 (ha : a.toNat % 4 = 0) :
    Leads (CodeStep a divCode) ⟨x, slot a 33, m⟩
      (Returned x m divRegs (MOp.eval .rem (x.get a0) (x.get a1))) := by
  let y := alus [.opImm .addi t0 ra 0] x
  have hy : Saved x y := .mv fun _ _ => rfl
  have hk {r : Rv32.Reg} (hr : r ∉ [t0]) : y.get r = x.get r := alus_kept [t0] rfl x hr
  have h0 : y.get a0 = x.get a0 := hk (by decide)
  have h1 : y.get a1 = x.get a1 := hk (by decide)
  refine leads_alus [.opImm .addi t0 ra 0] rfl ⟨_, rfl⟩ ?_
  refine leads_branch (x := y) (t := 39) rfl (by decide) (fun hb => ?_) fun hb => ?_
  all_goals rw [BOp.taken, Regs.get_zero, slt_zero, h1] at hb
  · -- `.L31`
    let z := alus [.op .sub a1 0 a1] y
    have hz : Saved x z := hy.alus rfl
    have hz0 : z.get a0 = x.get a0 := (alus_kept [a1] rfl y (by decide)).trans h0
    have hz1 : z.get a1 = (x.get a1).abs := by
      rw [BitVec.abs, if_pos hb, ← h1]
      exact alu_neg y (by decide)
    refine leads_alus [.op .sub a1 0 a1] rfl ⟨_, rfl⟩ ?_
    refine leads_branch (x := z) (t := 36) rfl (by decide) (fun hs => ?_) fun hs => ?_
    all_goals rw [BOp.taken, Regs.get_zero, zero_sle, hz0] at hs
    · rw [eval_rem, if_neg (by simpa using hs), ← hz0, ← hz1]
      exact leads_L30 ha hz
    · rw [eval_rem, if_pos (by simpa using hs), ← hz0, ← hz1]
      exact leads_L32 ha hz
  · have habs : (x.get a1).abs = x.get a1 := by rw [BitVec.abs, if_neg (by simpa using hb)]
    refine leads_branch (x := y) (t := 41) rfl (by decide) (fun hs => ?_) fun hs => ?_
    all_goals rw [BOp.taken, Regs.get_zero, slt_zero, h0] at hs
    · rw [eval_rem, if_pos hs, habs, ← h0, ← h1]
      exact leads_L32 ha hy
    · rw [eval_rem, if_neg (by simpa using hs), habs, ← h0, ← h1]
      exact leads_L30 ha hy

/-- A return from `__udivsi3` that an entry jumped to is its own return. -/
theorem returned_of_divided {v : Word} (hy : ∀ r, r ∉ argRegs → y.get r = x.get r)
    (hv : MOp.eval .divu (y.get a0) (y.get a1) = v) {s : State} (h : Divided y m s) :
    Returned x m divRegs v s where
  pc := by rw [h.pc, hy ra (by decide)]
  mem := h.mem
  value := h.value.trans hv
  kept r hr := by
    have hargs : r ∉ argRegs := fun hmem => hr (List.mem_cons_of_mem _ (List.mem_cons_of_mem _ hmem))
    rw [h.kept r hargs, hy r hargs]

/-- `__divsi3` -/
theorem leads_divsi3 (ha : a.toNat % 4 = 0) :
    Leads (CodeStep a divCode) ⟨x, slot a 0, m⟩
      (Returned x m divRegs (MOp.eval .div (x.get a0) (x.get a1))) := by
  refine leads_branch (t := 24) rfl (by decide) (fun hs => ?_) fun hs => ?_
  all_goals rw [BOp.taken, Regs.get_zero, slt_zero] at hs
  · -- `.L10`
    let y := alus [.op .sub a0 0 a0] x
    have hy (r : Rv32.Reg) (hr : r ∉ argRegs) : y.get r = x.get r := alus_kept argRegs rfl x hr
    have h0 : y.get a0 = -x.get a0 := alu_neg x (by decide)
    have h1 : y.get a1 = x.get a1 := alus_kept [a0] rfl x (by decide)
    refine leads_alus [.op .sub a0 0 a0] rfl ⟨_, rfl⟩ ?_
    refine leads_branch (x := y) (t := 29) rfl (by decide) (fun hb => ?_) fun hb => ?_
    all_goals rw [BOp.taken, Regs.get_zero, h1] at hb
    · rw [zero_slt] at hb
      rw [eval_div_of_neg_left hs hb.1 hb.2, ← h0, ← h1]
      exact leads_L12 ha hy
    · have hb' : (x.get a1).msb = true ∨ x.get a1 = 0 := by
        rw [← Bool.not_eq_true, zero_slt, not_and_or, not_not] at hb
        simpa using hb
      let z := (alus [.op .sub a1 0 a1] y).set 0 (slot a 28)
      have hz {r : Rv32.Reg} (hr : r ≠ 0) : z.get r = (alus [.op .sub a1 0 a1] y).get r :=
        Regs.get_set_ne _ _ hr
      have hzx (r : Rv32.Reg) (hr : r ∉ argRegs) : z.get r = x.get r := by
        by_cases hr0 : r = 0
        · rw [hr0, Regs.get_zero, Regs.get_zero]
        · rw [hz hr0, alus_kept argRegs rfl y hr, hy r hr]
      refine leads_alus [.op .sub a1 0 a1] rfl ⟨_, rfl⟩ (leads_jal (t := 2) rfl (by decide) ?_)
      refine leads_udivsi3.mono fun t ht => returned_of_divided (y := z) hzx ?_ ht
      rw [eval_div_of_neg hs hb', ← h0, ← h1, hz (by decide), hz (by decide), alus_cons, alus_nil,
        alu_neg y (by decide), alu_kept _ y (r := a0) (by decide)]
  · refine leads_branch (t := 28) rfl (by decide) (fun hb => ?_) fun hb => ?_
    all_goals rw [BOp.taken, Regs.get_zero, slt_zero] at hb
    · -- `.L11`
      let y := alus [.op .sub a1 0 a1] x
      have hy (r : Rv32.Reg) (hr : r ∉ argRegs) : y.get r = x.get r := alus_kept argRegs rfl x hr
      have h0 : y.get a0 = x.get a0 := alus_kept [a1] rfl x (by decide)
      have h1 : y.get a1 = -x.get a1 := alu_neg x (by decide)
      refine leads_alus [.op .sub a1 0 a1] rfl ⟨_, rfl⟩ ?_
      rw [eval_div_of_neg_right hs hb, ← h0, ← h1]
      exact leads_L12 ha hy
    · refine leads_udivsi3.mono fun t ht => returned_of_divided (fun _ _ => rfl) ?_ ht
      rw [eval_div_of_nonneg hs hb]

/-- Every entry returns what the M extension gives for its operation. -/
theorem leads_divS {l : DivLabel} {o : MOp} (hl : l.op = some o) (ha : a.toNat % 4 = 0) :
    Leads (CodeStep a divCode) ⟨x, slot a (labelAt l divS), m⟩
      (Returned x m divRegs (o.eval (x.get a0) (x.get a1))) := by
  cases l with
  | divsi3 => cases hl; exact leads_divsi3 ha
  | udivsi3 =>
    cases hl
    exact leads_udivsi3.mono fun t ht => returned_of_divided (fun _ _ => rfl) rfl ht
  | umodsi3 => cases hl; exact leads_umodsi3 ha
  | modsi3 => cases hl; exact leads_modsi3 ha
  | _ => cases hl

end Entries

/-- NEMU is back at the caller: `v` is in `a0`, and only the registers `ws` have changed. -/
structure Back (m m' : Machine) (ws : List Rv32.Reg) (v : Word) : Prop where
  pc : m'.cpu.pc = m.cpu.gpr ra &&& ~~~1
  value : m'.cpu.gpr a0 = v
  kept : ∀ r, r ∉ ws → m'.cpu.gpr r = m.cpu.gpr r
  mem : m'.mem.view = m.mem.view
  csr : m'.cpu.csr = m.cpu.csr
  state : m'.nemuState = m.nemuState

section Calls

variable {cfg : Config} {m : Machine} {a : Word} {code : List Instr} {k : ℕ} {v : Word}
  {ws : List Rv32.Reg}

theorem get_gpr (h0 : m.cpu.gpr 0 = 0) (r : Rv32.Reg) : Regs.get m.cpu.gpr r = m.cpu.gpr r := by
  rw [Regs.get]
  split_ifs with hr
  · rw [hr, h0]
  · rfl

/-- A routine that returns makes the emulator return. -/
theorem back_of_leads (hrve : cfg.RVE = false) (h0 : m.cpu.gpr 0 = 0)
    (hcode : Placed cfg a (code.map .base) m.mem.view) (hplain : ∀ i ∈ code, plain i)
    (hpc : m.cpu.pc = slot a k)
    (h : Leads (CodeStep a code) ⟨m.cpu.gpr, slot a k, m.mem.view⟩
      (Returned m.cpu.gpr m.mem.view ws v)) :
    ∃ n m', execSteps cfg n m = .ok m' ∧ Back m m' ws v := by
  have hstart : m.arch m.cpu.pc = ⟨m.cpu.gpr, slot a k, m.mem.view⟩ := by rw [hpc]; rfl
  rw [← hstart] at h
  obtain ⟨n, m', hsteps, hret, h0', hmem, hcsr, hstate⟩ :=
    execSteps_of_leads hrve h0 hcode hplain h
  have hget (r : Rv32.Reg) : Regs.get m'.cpu.gpr r = m'.cpu.gpr r := get_gpr h0' r
  refine ⟨n, m', hsteps, ?_, ?_, fun r hr => ?_, hmem, hcsr, hstate⟩
  · exact hret.pc.trans (by rw [get_gpr h0])
  · rw [← hget]
    exact hret.value
  · rw [← hget, ← get_gpr h0]
    exact hret.kept r hr

/-- A call of `__mulsi3` comes back with the product. -/
theorem mulsi3_returns (hrve : cfg.RVE = false) (h0 : m.cpu.gpr 0 = 0)
    (hcode : Placed cfg a (mulCode.map .base) m.mem.view) (hpc : m.cpu.pc = a) :
    ∃ n m', execSteps cfg n m = .ok m' ∧
      Back m m' argRegs (MOp.eval .mul (m.cpu.gpr a0) (m.cpu.gpr a1)) := by
  rw [MOp.eval, ofInt_mul_toInt, ← get_gpr h0 a0, ← get_gpr h0 a1]
  exact back_of_leads (k := 0) hrve h0 hcode (by decide) (hpc.trans (slot_zero a).symm) leads_mulsi3

/-- A call of an entry of `div.S` comes back with the value of its operation, for every dividend
and divisor. -/
theorem divS_returns {l : DivLabel} {o : MOp} (hl : l.op = some o) (hrve : cfg.RVE = false)
    (h0 : m.cpu.gpr 0 = 0) (ha : a.toNat % 4 = 0)
    (hcode : Placed cfg a (divCode.map .base) m.mem.view)
    (hpc : m.cpu.pc = slot a (labelAt l divS)) :
    ∃ n m', execSteps cfg n m = .ok m' ∧
      Back m m' divRegs (o.eval (m.cpu.gpr a0) (m.cpu.gpr a1)) := by
  rw [← get_gpr h0 a0, ← get_gpr h0 a1]
  exact back_of_leads hrve h0 hcode (by decide) hpc (leads_divS hl ha)

end Calls

/-- A machine at entry `k` of code at the start of the flash, with two operands. -/
def callOf (code : List Instr) (k : ℕ) (x y : Word) : Machine where
  cpu := ⟨Function.update (Function.update 0 a0 x) a1 y, slot 0x30000000 k, ⟨0, 0, 0, 0⟩⟩
  mem := imageOfCode (code.map .base)
  nemuState := ⟨.RUNNING, 0, 0⟩
  isSkipRef := false
  skipDutNrInst := 0

theorem callOf_placed {code : List Instr} {k : ℕ} {x y : Word} (h0 : 0 < code.length)
    (hlen : 4 * code.length ≤ 4096) :
    Placed defaultConfig 0x30000000 (code.map .base) (callOf code k x y).mem.view :=
  imageOfCode_placed (by rwa [List.length_map]) (by rwa [List.length_map])

theorem mulsi3_returns_six_seven : ∃ n m', execSteps defaultConfig n (callOf mulCode 0 6 7) = .ok m' ∧
    Back (callOf mulCode 0 6 7) m' argRegs (MOp.eval .mul 6 7) :=
  mulsi3_returns (m := callOf mulCode 0 6 7) rfl rfl (callOf_placed (by decide) (by decide))
    (slot_zero _)

/-- The least integer divided by -1. -/
theorem divS_returns_overflow : ∃ n m',
    execSteps defaultConfig n (callOf divCode 0 (BitVec.intMin 32) (-1)) = .ok m' ∧
      Back (callOf divCode 0 (BitVec.intMin 32) (-1)) m' divRegs
        (MOp.eval .div (BitVec.intMin 32) (-1)) :=
  divS_returns (l := .divsi3) (m := callOf divCode 0 (BitVec.intMin 32) (-1)) rfl rfl rfl
    (by decide) (callOf_placed (by decide) (by decide)) rfl

end Ysyx.Am.Libgcc
