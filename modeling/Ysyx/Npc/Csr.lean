import Ysyx.Npc.Protocol

/-! CSR instructions in the core. The write enable of `mcycle` comes from the
decoder alone, so it lasts as long as the instruction stays latched: the two
cycles before the retiring edge see one register file, and so do all the cycles
from that edge to the next fetch. No number of writes is ever one. -/

namespace Ysyx.Npc

open Bytes Rv32 Sync

/-- csrrw, or csrrs with a source other than `x0`, on mcycle or mcycleh. -/
def IsCsrAccess (w : Word) : Prop :=
  opcode w = 0b1110011 ∧
    (funct3 w = 0b001 ∨ (funct3 w = 0b010 ∧ Rv32.rs1 w ≠ 0)) ∧
    (w.extractLsb' 20 12 = 0xB00 ∨ w.extractLsb' 20 12 = 0xB80)

/-- The half of `mcycle` at a CSR address. -/
def csrHalf (addr : BitVec 12) (mcycle : BitVec 64) : Word :=
  if addr = 0xB00 then mcycle.extractLsb' 0 32 else mcycle.extractLsb' 32 32

/-- The edge takes a branch of `ysyx_25080202_CSR` that assigns a half of `mcycle`. -/
def Core.csrWrite (c : Core) : Bool :=
  (c.idu.iCsrrw || (c.idu.iCsrrs && c.exu.csrWdata != 0)) &&
    (c.idu.csrAddr == 0xB00 || c.idu.csrAddr == 0xB80)

/-- The instruction accepted at `a` is still in the IFU at `t`. -/
def Latched (inp : ℕ → Inputs) (core : ℕ → Core) (a t : ℕ) : Prop :=
  a < t ∧ ∀ v, a < v → v < t → ¬ FetchAccepted inp core v

/-- The instruction accepted at `a` retires at `r`. -/
structure Retires (inp : ℕ → Inputs) (core : ℕ → Core) (a r : ℕ) : Prop where
  pos : 1 ≤ a
  accepted : FetchAccepted inp core a
  lt : a < r
  valid : (core r).wbu.valid = true
  first : ∀ v, a < v → v < r → (core v).wbu.valid = false

/-- The instruction accepted at `a` and retired at `r` is atomic: one of its cycles
writes the CSR, with the entry value of `rs1`; `rd` receives what the CSR held
before; and the counter advances in every other cycle. -/
structure AtomicCsr (inp : ℕ → Inputs) (core : ℕ → Core) (a r : ℕ) : Prop where
  once : ∃! t, Latched inp core a t ∧ (core t).csrWrite = true
  value : ∀ t, Latched inp core a t → (core t).csrWrite = true →
    csrHalf (core t).idu.csrAddr (core (t + 1)).mcycle =
      if (core t).idu.iCsrrw then (core (a + 1)).r1Data
      else csrHalf (core t).idu.csrAddr (core t).mcycle ||| (core (a + 1)).r1Data
  old : ∀ t, Latched inp core a t → (core t).csrWrite = true →
    (core r).regWdata = csrHalf (core t).idu.csrAddr (core t).mcycle
  counts : ∀ t, Latched inp core a t → (core t).csrWrite = false →
    (core (t + 1)).mcycle = (core t).mcycle + 1

section Retirement

variable {inp : ℕ → Inputs} {core : ℕ → Core} {n a r : ℕ}

theorem csrWrite_congr {c c' : Core} (hi : c'.ifu.inst = c.ifu.inst) (hrf : c'.rf = c.rf) :
    c'.csrWrite = c.csrWrite := by
  have hd : c'.idu = c.idu := congrArg Npc.idu hi
  have hw : c'.exu.csrWdata = c.exu.csrWdata := by
    simp only [Core.exu, exu, Core.r1Data, hd, hrf]
  rw [Core.csrWrite, Core.csrWrite, hd, hw]

theorem Run.rf_succ (h : Run inp core n) {t : ℕ} (hret : (core t).wbu.valid = false) :
    (core (t + 1)).rf = (core t).rf := by
  rw [h.trace t]
  simp [Core.next, RegisterFile.next, hret]

/-- An instruction that makes no access retires two cycles after it is accepted,
and the next fetch is shown two cycles later. -/
theorem Retires.phases (h : Run inp core n) (ha : 1 ≤ a) (hacc : FetchAccepted inp core a)
    (hmem : ¬ IsAccess (inp a).ifuRdata) :
    n ≤ a ∧ (core (a + 1)).phase = .dispatch ∧ (core (a + 2)).phase = .retire ∧
      (core (a + 3)).phase = .start ∧ (core (a + 4)).phase = .fetch true := by
  have hwait := (h.legal a ha).ifuState.symm.trans hacc.1
  have hn : n ≤ a := h.le_of_ne_start ha fun hs => by rw [hs] at hwait; cases hwait
  have h1 : (core (a + 1)).phase = .dispatch := by
    rw [h.phase_succ hn, hacc.2, next_of_accept _ _ _ hwait]
  have hinst := (h.instr_stable ha hacc (Nat.lt_succ_self a) fun v hv hv' => by omega).2
  have hwork : (core (a + 1)).idu.working = false := by
    rw [← Bool.not_eq_true, Core.idu, hinst, working_iff]
    exact hmem
  have h2 : (core (a + 2)).phase = .retire := by
    rw [h.phase_succ (by omega), h1, hwork]
    rfl
  have h3 : (core (a + 3)).phase = .start := by
    rw [h.phase_succ (by omega), h2]
    rfl
  refine ⟨hn, h1, h2, h3, ?_⟩
  rw [h.phase_succ (by omega), h3]
  rfl

/-- After it has retired an instruction stays latched through the next fetch, with the
register file it left. -/
theorem Run.latched_fetch (h : Run inp core n) (ha : n ≤ a)
    (hfetch : (core (a + 4)).phase = .fetch true) {t : ℕ} (ht : a + 4 ≤ t)
    (hl : Latched inp core a t) :
    (∃ b, (core t).phase = .fetch b) ∧ (core t).ifu.inst = (core (a + 4)).ifu.inst ∧
      (core t).rf = (core (a + 4)).rf := by
  induction t, ht using Nat.le_induction with
  | base => exact ⟨⟨_, hfetch⟩, rfl, rfl⟩
  | succ t ht ih =>
    obtain ⟨⟨b, hb⟩, hinst, hrf⟩ := ih ⟨by omega, fun v hv hvt => hl.2 v hv (by omega)⟩
    have hleg := h.legal t (by omega)
    have hno := hl.2 t (by omega) (by omega)
    have hwait : (core t).ifu.state = .wait := by rw [hleg.ifuState, hb]; rfl
    have hresp : (inp t).ifuRespValid = false := by
      rw [← Bool.not_eq_true]
      exact fun hx => hno ⟨hwait, hx⟩
    have hret : (core t).wbu.valid = false := by rw [hleg.wbuValid, hb]; rfl
    refine ⟨⟨false, ?_⟩, (h.inst_succ (by omega) hno).trans hinst, (h.rf_succ hret).trans hrf⟩
    rw [h.phase_succ (by omega), hb, hresp]
    rfl

theorem not_isAccess {w : Word} (hw : IsCsrAccess w) : ¬ IsAccess w := by
  rintro (⟨ho, -⟩ | ⟨ho, -⟩) <;> rw [hw.1] at ho <;> exact absurd ho (by decide)

/-- Every cycle that writes the CSR has a companion that writes it as well. -/
theorem Run.csrWrite_twice (h : Run inp core n) (ha : 1 ≤ a) (hacc : FetchAccepted inp core a)
    (hcsr : IsCsrAccess (inp a).ifuRdata) {t : ℕ} (hl : Latched inp core a t)
    (hw : (core t).csrWrite = true) :
    ∃ u, u ≠ t ∧ Latched inp core a u ∧ (core u).csrWrite = true := by
  obtain ⟨hn, h1, h2, h3, h4⟩ := Retires.phases h ha hacc (not_isAccess hcsr)
  have hidle (k : ℕ) (hk : (core (a + k)).phase.control.ifuState = .idle) (hk1 : 1 ≤ a + k) :
      ¬ FetchAccepted inp core (a + k) := by
    rintro ⟨hwait, -⟩
    rw [(h.legal _ hk1).ifuState, hk] at hwait
    cases hwait
  have hno1 := hidle 1 (by rw [h1]; rfl) (by omega)
  have hno2 := hidle 2 (by rw [h2]; rfl) (by omega)
  have hno3 := hidle 3 (by rw [h3]; rfl) (by omega)
  have hlatched (k : ℕ) (hk : 1 ≤ k) (hk4 : k ≤ 4) : Latched inp core a (a + k) := by
    refine ⟨by omega, fun v hv hvk => ?_⟩
    rcases (show v = a + 1 ∨ v = a + 2 ∨ v = a + 3 by omega) with rfl | rfl | rfl <;> assumption
  have hpair (k : ℕ) (hk : ¬ FetchAccepted inp core (a + k))
      (hret : (core (a + k)).phase.control.wbu.valid = false) (hk1 : 1 ≤ a + k) :
      (core (a + k + 1)).csrWrite = (core (a + k)).csrWrite :=
    csrWrite_congr (h.inst_succ (by omega) hk) (h.rf_succ ((h.legal _ hk1).wbuValid.trans hret))
  have h12 := hpair 1 hno1 (by rw [h1]; rfl) (by omega)
  have h34 := hpair 3 hno3 (by rw [h3]; rfl) (by omega)
  by_cases ht : t = a + 1 ∨ t = a + 2
  · -- before the retiring edge
    rcases ht with rfl | rfl
    · exact ⟨a + 2, by omega, hlatched 2 (by decide) (by decide), h12.trans hw⟩
    · exact ⟨a + 1, by omega, hlatched 1 (by decide) (by decide), h12.symm.trans hw⟩
  by_cases ht3 : t = a + 3
  · subst ht3
    exact ⟨a + 4, by omega, hlatched 4 (by decide) (by decide), h34.trans hw⟩
  · -- after it, with the instruction latched until the next fetch answers
    have := hl.1
    obtain ⟨-, hinst, hrf⟩ := h.latched_fetch hn h4 (show a + 4 ≤ t by omega) hl
    exact ⟨a + 3, by omega, hlatched 3 (by decide) (by decide),
      h34.symm.trans ((csrWrite_congr hinst hrf).symm.trans hw)⟩

/-- No CSR instruction is atomic. -/
theorem Run.not_once (h : Run inp core n) (ha : 1 ≤ a) (hacc : FetchAccepted inp core a)
    (hcsr : IsCsrAccess (inp a).ifuRdata) :
    ¬ ∃! t, Latched inp core a t ∧ (core t).csrWrite = true := by
  rintro ⟨t, ⟨hl, hw⟩, huniq⟩
  obtain ⟨u, hne, hu⟩ := h.csrWrite_twice ha hacc hcsr hl hw
  exact hne (huniq u hu)

end Retirement

/-- No CSR instruction is atomic in any run. -/
theorem not_atomicCsr {inp : ℕ → Inputs} {core : ℕ → Core} {n a r : ℕ} (h : Run inp core n)
    (hret : Retires inp core a r) (hcsr : IsCsrAccess (inp a).ifuRdata) :
    ¬ AtomicCsr inp core a r :=
  fun hat => h.not_once hret.pos hret.accepted hcsr hat.once

/-- `csrrw x1, mcycle, x2`. -/
def csrrwWord : Word := encodeI 0xB00 2 0b001 1 0b1110011

theorem csrrwWord_isCsrAccess : IsCsrAccess csrrwWord := by
  refine ⟨?_, .inl ?_, .inl ?_⟩ <;> decide

/-- Fed with that word the core accepts it in cycle 2 and retires it in cycle 4. -/
theorem csrrwWord_retires : Retires (answering csrrwWord) (coreOf csrrwWord) 2 4 where
  pos := by decide
  accepted := ⟨rfl, rfl⟩
  lt := by decide
  valid := rfl
  first := by
    intro v hv hv4
    rw [show v = 3 by omega]
    rfl

theorem not_atomicCsr_csrrw : ¬ AtomicCsr (answering csrrwWord) (coreOf csrrwWord) 2 4 :=
  not_atomicCsr (coreOf_run _) csrrwWord_retires csrrwWord_isCsrAccess

theorem csr_written_twice :
    ¬ ∀ (inp : ℕ → Inputs) (core : ℕ → Core) (n a r : ℕ), Run inp core n →
      Retires inp core a r → IsCsrAccess (inp a).ifuRdata → AtomicCsr inp core a r := by
  intro hall
  have hat := hall _ _ _ _ _ (coreOf_run csrrwWord) csrrwWord_retires csrrwWord_isCsrAccess
  exact (coreOf_run csrrwWord).not_once (by decide) csrrwWord_retires.accepted
    csrrwWord_isCsrAccess hat.once

end Ysyx.Npc
