import Ysyx.Lib.Words
import Ysyx.Nemu.Iteration

/-! Guest code on NEMU: RV32I with the CSR accesses, `ecall` and `mret` as `inst.c` executes
them, what one turn of `exec_once` does to the registers, the memory the guest sees and the
CSRs, and runs of straight-line code. -/

namespace Ysyx.Nemu

open Bytes Rv32

/-- The state guest code works on. -/
@[ext] structure Guest extends State where
  csr : CSRs

def Machine.guest (m : Machine) : Guest := ⟨m.arch m.cpu.pc, m.cpu.csr⟩

inductive Insn where
  | base (i : Instr)
  | csrrw (rd rs1 : Reg) (r : CsrName)
  | csrrs (rd rs1 : Reg) (r : CsrName)
  | ecall
  | mret
  deriving DecidableEq, Repr

/-- The CSR addresses of the privileged specification. -/
def CsrName.num : CsrName → BitVec 12
  | .mstatus => 0x300
  | .mtvec => 0x305
  | .mepc => 0x341
  | .mcause => 0x342

def Insn.encode : Insn → Word
  | .base i => i.encode
  | .csrrw rd rs1 r => encodeI r.num rs1 0b001 rd 0b1110011
  | .csrrs rd rs1 r => encodeI r.num rs1 0b010 rd 0b1110011
  | .ecall => 0x00000073
  | .mret => 0x30200073

def Insn.exec : Insn → Guest → Guest
  | .base i, g => ⟨i.exec g.toState, g.csr⟩
  | .csrrw rd rs1 r, g => ⟨(g.write rd (g.csr.get r)).next, g.csr.set r (g.read rs1)⟩
  | .csrrs rd rs1 r, g =>
      ⟨(g.write rd (g.csr.get r)).next, g.csr.set r (g.csr.get r ||| g.read rs1)⟩
  | .ecall, g => ⟨{ g.toState with pc := g.csr.mtvec }, { g.csr with mcause := 0xb, mepc := g.pc }⟩
  | .mret, g => ⟨{ g.toState with pc := g.csr.mepc }, g.csr⟩

/-- `execute` without what it does beside `exec_once`. -/
def execSteps (cfg : Config) : ℕ → Machine → Except Fault Machine
  | 0, m => .ok m
  | n + 1, m => do
    let (_, m) ← execOnce cfg m m.cpu.pc
    execSteps cfg n m

/-- The access of the instruction, if it makes one. -/
def Insn.access : Insn → Guest → Option (Word × ℕ)
  | .base i, g => i.access g.toState
  | _, _ => none

/-- Where the emulator executes the instruction: its access is inside memory, and the count of
a register shift is one that C defines. -/
structure Insn.Fits (cfg : Config) (i : Insn) (g : Guest) : Prop where
  access : ∀ a n, i.access g = some (a, n) → InMem cfg a n
  shift : ∀ j m, i = .base j → m.cpu.gpr = g.x → ShiftInRange m j

section Step

variable {cfg : Config} {m : Machine} {s s' : Decode}

def Insn.name : Insn → InstName
  | .base i => instName i
  | .csrrw .. => .csrrw
  | .csrrs .. => .csrrs
  | .ecall => .ecall
  | .mret => .mret

def Insn.type : Insn → OperandType
  | .base i => instType i
  | .csrrw .. | .csrrs .. | .ecall => .I
  | .mret => .R

theorem find_insn (i : Insn) : ∃ p, instpats.find? (·.hits i.encode) = some p ∧
    p.name = i.name ∧ p.type = i.type := by
  cases i with
  | base i => exact find_encode i
  | csrrw rd rs1 r | csrrs rd rs1 r =>
    simp only [Insn.encode, find_hits, encodeI_eq, test_encodeR]
    exact ⟨_, rfl, rfl, rfl⟩
  | ecall | mret =>
    rw [find_hits]
    exact ⟨_, rfl, rfl, rfl⟩

theorem Insn.encode_ne_ebreak (i : Insn) : i.encode ≠ EBREAK := by
  intro h
  obtain ⟨p, hp, hname, -⟩ := find_insn i
  obtain ⟨q, hq, hebreak, -⟩ := find_ebreak
  rw [h, hq] at hp
  cases hp
  rw [hebreak] at hname
  cases i with
  | base i => cases i with
    | op o | opImm o | shiftImm o | branch o | load o | store o => cases o <;> cases hname
    | _ => cases hname
  | _ => cases hname

theorem csrRegister_num (r : CsrName) : csrRegister (r.num.signExtend 32) = .ok r := by
  cases r <;> rfl

theorem decodeOperand_csr (hrve : cfg.RVE = false) (n : BitVec 12) (rs1 : Reg) (f3 : BitVec 3)
    (rd : Reg) :
    decodeOperand cfg m (encodeI n rs1 f3 rd 0b1110011) .I =
      .ok ⟨rd, m.cpu.gpr rs1, 0, n.signExtend 32⟩ := by
  have hrd : (encodeI n rs1 f3 rd 0b1110011).extractLsb' 7 5 = rd := rd_encodeI n rs1 f3 rd _
  have hrs : (encodeI n rs1 f3 rd 0b1110011).extractLsb' 15 5 = rs1 := rs1_encodeI n rs1 f3 rd _
  simp only [decodeOperand, BITS_reg _ (show 19 - 15 + 1 = 5 by decide),
    BITS_reg _ (show 11 - 7 + 1 = 5 by decide), hrd, hrs, gpr_ok hrve, immI_encodeI]
  rfl

/-- The instruction that was fetched is the one in the decoder state. -/
theorem isaExecOnce_inst {w : Word} {m' : Machine} (hfetch : vaddrIfetch cfg m.mem s.snpc 4 = .ok w)
    (h : isaExecOnce cfg s m = .ok (s', m')) : s'.inst = w := by
  simp only [isaExecOnce, hfetch, decodeExec, bind, Except.bind] at h
  split at h
  · split at h
    · cases h
    · split at h
      · cases h
      · split at h <;> cases h
        rfl
  · split at h <;> cases h
    rfl

theorem execOnce_of_isaExecOnce {m₁ : Machine} {i : Insn}
    (hfetch : vaddrIfetch cfg m.mem m.cpu.pc 4 = .ok i.encode)
    (h : isaExecOnce cfg ⟨m.cpu.pc, m.cpu.pc, 0, 0⟩ m = .ok (s, m₁)) :
    execOnce cfg m m.cpu.pc = .ok (s, { m₁ with cpu := { m₁.cpu with pc := s.dnpc } }) := by
  have hinst : s.inst ≠ EBREAK := isaExecOnce_inst hfetch h ▸ i.encode_ne_ebreak
  rw [execOnce, h]
  simp only [bind, Except.bind, afterIsaExec, if_neg hinst]
  rfl

theorem isaExecOnce_body {i : Insn} {o : Operands} {m₂ : Machine} {d : Word}
    (hrve : cfg.RVE = false) (hfetch : vaddrIfetch cfg m.mem m.cpu.pc 4 = .ok i.encode)
    (ho : decodeOperand cfg m i.encode i.type = .ok o)
    (hbody : execBody cfg m ⟨m.cpu.pc, m.cpu.pc + 4, m.cpu.pc + 4, i.encode⟩ o i.name =
      .ok (m₂, d)) :
    isaExecOnce cfg ⟨m.cpu.pc, m.cpu.pc, 0, 0⟩ m =
      .ok (⟨m.cpu.pc, m.cpu.pc + 4, d, i.encode⟩, m₂.setGpr 0 0) := by
  obtain ⟨p, hp, hname, htype⟩ := find_insn i
  rw [isaExecOnce_find hfetch hp, hname, htype]
  simp only [ho, hbody, bind, Except.bind, setGpr_ok hrve, pure, Except.pure]

theorem execOnce_insn {i : Insn} (hrve : cfg.RVE = false) (h0 : m.cpu.gpr 0 = 0)
    (hfetch : vaddrIfetch cfg m.mem m.cpu.pc 4 = .ok i.encode) (hfit : i.Fits cfg m.guest) :
    ∃ s m', execOnce cfg m m.cpu.pc = .ok (s, m') ∧ m'.guest = i.exec m.guest ∧
      m'.cpu.gpr 0 = 0 := by
  suffices h : ∃ s m₁, isaExecOnce cfg ⟨m.cpu.pc, m.cpu.pc, 0, 0⟩ m = .ok (s, m₁) ∧
      m₁.arch s.dnpc = (i.exec m.guest).toState ∧ m₁.cpu.csr = (i.exec m.guest).csr by
    obtain ⟨s, m₁, hexec, harch, hcsr⟩ := h
    have hzero := isaExecOnce_gpr_zero hexec
    exact ⟨s, _, execOnce_of_isaExecOnce hfetch hexec, Guest.ext (congrArg State.x harch)
      (congrArg State.pc harch) (congrArg State.mem harch) hcsr, hzero⟩
  have hread (r : Reg) : m.guest.read r = m.cpu.gpr r := read_eq h0 r m.cpu.pc
  cases i with
  | base i =>
    obtain ⟨s, m₁, hexec, harch, hrest⟩ := meetsSpec_of_shiftInRange (s := ⟨m.cpu.pc, m.cpu.pc, 0, 0⟩)
      hrve rfl h0 hfetch hfit.access (hfit.shift i m rfl rfl)
    exact ⟨s, m₁, hexec, harch, congrArg (·.cpu.csr) hrest⟩
  | csrrw rd rs1 r =>
    have hbody : execBody cfg m ⟨m.cpu.pc, m.cpu.pc + 4, m.cpu.pc + 4, (Insn.csrrw rd rs1 r).encode⟩
        ⟨rd, m.cpu.gpr rs1, 0, r.num.signExtend 32⟩ .csrrw =
        .ok ((m.setGpr rd (m.cpu.csr.get r)).setCsr r (m.cpu.gpr rs1), m.cpu.pc + 4) := by
      simp only [execBody, csrRegister_num, bind, Except.bind, setGpr_ok hrve, pure, Except.pure]
    refine ⟨_, _, isaExecOnce_body hrve hfetch (decodeOperand_csr hrve _ _ _ _) hbody, ?_, ?_⟩
    · exact setGpr_zero (m := m) rd (m.cpu.csr.get r) (m.cpu.pc + 4)
    · exact congrArg (m.cpu.csr.set r) (hread rs1).symm
  | csrrs rd rs1 r =>
    have hbody : execBody cfg m ⟨m.cpu.pc, m.cpu.pc + 4, m.cpu.pc + 4, (Insn.csrrs rd rs1 r).encode⟩
        ⟨rd, m.cpu.gpr rs1, 0, r.num.signExtend 32⟩ .csrrs =
        .ok ((m.setGpr rd (m.cpu.csr.get r)).setCsr r (m.cpu.csr.get r ||| m.cpu.gpr rs1),
          m.cpu.pc + 4) := by
      simp only [execBody, csrRegister_num, bind, Except.bind, setGpr_ok hrve, pure, Except.pure,
        setGpr_csr]
    refine ⟨_, _, isaExecOnce_body hrve hfetch (decodeOperand_csr hrve _ _ _ _) hbody, ?_, ?_⟩
    · exact setGpr_zero (m := m) rd (m.cpu.csr.get r) (m.cpu.pc + 4)
    · exact congrArg (fun v => m.cpu.csr.set r (m.cpu.csr.get r ||| v)) (hread rs1).symm
  | ecall =>
    have ho : ∃ o, decodeOperand cfg m Insn.ecall.encode .I = .ok o := by
      simp only [decodeOperand, gpr_ok hrve, bind, Except.bind, pure, Except.pure]
      exact ⟨_, rfl⟩
    obtain ⟨o, ho⟩ := ho
    refine ⟨_, _, isaExecOnce_body hrve hfetch ho rfl, ?_, rfl⟩
    rw [setGpr_zero_self (by exact h0)]
    rfl
  | mret =>
    have ho : ∃ o, decodeOperand cfg m Insn.mret.encode .R = .ok o := by
      simp only [decodeOperand, gpr_ok hrve, bind, Except.bind, pure, Except.pure]
      exact ⟨_, rfl⟩
    obtain ⟨o, ho⟩ := ho
    refine ⟨_, _, isaExecOnce_body hrve hfetch ho rfl, ?_, rfl⟩
    rw [setGpr_zero_self h0]
    rfl

end Step

/-- The instructions of `code` executed in turn. -/
def execs (code : List Insn) (g : Guest) : Guest := code.foldl (fun g i => i.exec g) g

@[simp] theorem execs_nil (g : Guest) : execs [] g = g := rfl

@[simp] theorem execs_cons (i : Insn) (is : List Insn) (g : Guest) :
    execs (i :: is) g = execs is (i.exec g) := rfl

theorem execs_append (c d : List Insn) (g : Guest) : execs (c ++ d) g = execs d (execs c g) :=
  List.foldl_append

/-- `code` stands at `a`, in memory that the emulator can fetch from. -/
structure Placed (cfg : Config) (a : Word) (code : List Insn) (v : Word → Byte) : Prop where
  inMem : InMem cfg a (4 * code.length)
  words : ∀ k i, code[k]? = some i → getSlot v a k = i.encode

/-- The instruction goes on with the next one and leaves the `n` words of code at `a` alone. -/
structure Insn.Smooth (cfg : Config) (a : Word) (n : ℕ) (i : Insn) (g : Guest) : Prop where
  fits : i.Fits cfg g
  pc : (i.exec g).pc = g.pc + 4
  mem : ∀ b, (b - a).toNat < 4 * n → (i.exec g).mem b = g.mem b

def Smooth (cfg : Config) (a : Word) (n : ℕ) : List Insn → Guest → Prop
  | [], _ => True
  | i :: is, g => i.Smooth cfg a n g ∧ Smooth cfg a n is (i.exec g)

section Straight

variable {cfg : Config} {a : Word} {n k : ℕ} {code part : List Insn} {v v' : Word → Byte}
  {g : Guest} {m : Machine}

theorem smooth_append {c d : List Insn} :
    Smooth cfg a n (c ++ d) g ↔ Smooth cfg a n c g ∧ Smooth cfg a n d (execs c g) := by
  induction c generalizing g with
  | nil => simp only [List.nil_append, Smooth, execs_nil, true_and]
  | cons i is ih => simp only [List.cons_append, Smooth, execs_cons, ih, and_assoc]

theorem Smooth.pc (h : Smooth cfg a n part g) : (execs part g).pc = slot g.pc part.length := by
  induction part generalizing g with
  | nil => exact (slot_zero g.pc).symm
  | cons i is ih =>
    have hnext : g.pc + 4 = slot g.pc 1 := rfl
    rw [execs_cons, ih h.2, h.1.pc, hnext, slot_slot, List.length_cons, Nat.add_comm]

theorem Smooth.mem (h : Smooth cfg a n part g) {b : Word} (hb : (b - a).toNat < 4 * n) :
    (execs part g).mem b = g.mem b := by
  induction part generalizing g with
  | nil => rfl
  | cons i is ih => rw [execs_cons, ih h.2, h.1.mem b hb]

theorem Placed.size (h : Placed cfg a code v) : 4 * code.length < 2 ^ 32 := by
  have := h.inMem.noWrap
  omega

theorem Placed.congr (h : Placed cfg a code v)
    (hv : ∀ b, (b - a).toNat < 4 * code.length → v' b = v b) : Placed cfg a code v' where
  inMem := h.inMem
  words k i hi := by
    have hk : k < code.length := (List.getElem?_eq_some_iff.mp hi).1
    rw [getSlot_congr hk (by have := h.size; omega) hv]
    exact h.words k i hi

theorem Placed.fetch {i : Insn} (h : Placed cfg a code m.mem.view) (hpc : m.cpu.pc = slot a k)
    (hi : code[k]? = some i) : vaddrIfetch cfg m.mem m.cpu.pc 4 = .ok i.encode := by
  have hk : k < code.length := (List.getElem?_eq_some_iff.mp hi).1
  have hin : InMem cfg (slot a k) 4 := h.inMem.sub (by omega)
  rw [hpc, ← h.words k i hi]
  exact paddrRead_ok _ hin (by decide)

/-- The emulator runs through a part of the code that has no jump in it. -/
theorem execSteps_smooth (hrve : cfg.RVE = false) (h0 : m.cpu.gpr 0 = 0)
    (hcode : Placed cfg a code m.mem.view) (hpc : m.cpu.pc = slot a k)
    (hpart : ∀ j i, part[j]? = some i → code[k + j]? = some i)
    (h : Smooth cfg a code.length part m.guest) :
    ∃ m', execSteps cfg part.length m = .ok m' ∧ m'.guest = execs part m.guest ∧
      m'.cpu.gpr 0 = 0 := by
  induction part generalizing m k with
  | nil => exact ⟨m, rfl, rfl, h0⟩
  | cons i is ih =>
    have hi : code[k]? = some i := hpart 0 i rfl
    obtain ⟨s, m₁, hexec, hguest, hzero⟩ := execOnce_insn hrve h0 (hcode.fetch hpc hi) h.1.fits
    have hcode₁ : Placed cfg a code m₁.mem.view := hcode.congr fun b hb => by
      have hmem : m₁.mem.view = (i.exec m.guest).mem := congrArg (·.mem) hguest
      rw [hmem, h.1.mem b hb]
      rfl
    have hpc₁ : m₁.cpu.pc = slot a (k + 1) := by
      have hnext : m₁.cpu.pc = (i.exec m.guest).pc := congrArg (·.pc) hguest
      rw [hnext, h.1.pc, show m.guest.pc = m.cpu.pc from rfl, hpc, slot_succ]
    have hpart₁ (j : ℕ) (i' : Insn) (hj : is[j]? = some i') : code[k + 1 + j]? = some i' := by
      rw [Nat.add_assoc, Nat.add_comm 1 j]
      exact hpart (j + 1) i' hj
    obtain ⟨m', hsteps, hguest', hzero'⟩ := ih hzero hcode₁ hpc₁ hpart₁ (hguest ▸ h.2)
    refine ⟨m', ?_, ?_, hzero'⟩
    · rw [List.length_cons, execSteps, hexec]
      exact hsteps
    · rw [hguest', hguest, execs_cons]

theorem execSteps_add (n k : ℕ) (m : Machine) :
    execSteps cfg (n + k) m = execSteps cfg n m >>= execSteps cfg k := by
  induction n generalizing m with
  | zero =>
    rw [Nat.zero_add]
    rfl
  | succ n ih =>
    rw [Nat.succ_add, execSteps, execSteps]
    cases execOnce cfg m m.cpu.pc with
    | error e => rfl
    | ok r => exact ih r.2

theorem execSteps_one {s : Decode} {m' : Machine} (h : execOnce cfg m m.cpu.pc = .ok (s, m')) :
    execSteps cfg 1 m = .ok m' := by
  rw [execSteps, h]
  rfl

theorem execSteps_trans {m₁ m₂ : Machine} (h₁ : execSteps cfg n m = .ok m₁)
    (h₂ : execSteps cfg k m₁ = .ok m₂) : execSteps cfg (n + k) m = .ok m₂ := by
  rw [execSteps_add, h₁]
  exact h₂

end Straight

/-- A flash image that consists of instructions. -/
def imageOfCode (is : List Insn) : Mem
  | .flash, off => ((is[off / 4]?).map fun i => byteOf i.encode (off % 4)).getD 0
  | .sram, _ => 0

theorem imageOfCode_words {is : List Insn} (hlen : 4 * is.length ≤ FLASH_SIZE) {n : ℕ} {i : Insn}
    (hi : is[n]? = some i) : getSlot (imageOfCode is).view 0x30000000 n = i.encode := by
  have hn : n < is.length := (List.getElem?_eq_some_iff.mp hi).1
  rw [FLASH_SIZE] at hlen
  conv_rhs => rw [← leWord_byteOf i.encode]
  refine leWord_congr fun j hj => ?_
  have hadd : slot 0x30000000 n + BitVec.ofNat 32 j = 0x30000000 + BitVec.ofNat 32 (4 * n + j) := by
    rw [slot, add_assoc, ← BitVec.ofNat_add]
  have hbase : (0x30000000 : Word).toNat = FLASH_BASE := rfl
  have hhost : guestToHost (slot 0x30000000 n + BitVec.ofNat 32 j) = .ok ⟨.flash, 4 * n + j⟩ := by
    rw [hadd, guestToHost_iff, toNat_add_ofNat (by rw [hbase, FLASH_BASE]; omega), hbase]
    exact ⟨rfl, by simp only [HostArray.window, FLASH_SIZE]; omega⟩
  rw [view_eq _ hhost]
  simp only [imageOfCode, show (4 * n + j) / 4 = n by omega, show (4 * n + j) % 4 = j by omega, hi,
    Option.map_some, Option.getD_some]

theorem imageOfCode_placed {is : List Insn} (h0 : 0 < is.length) (hlen : 4 * is.length ≤ 4096) :
    Placed defaultConfig 0x30000000 is (imageOfCode is).view where
  inMem := by
    have hbase : (0x30000000 : Word).toNat = FLASH_BASE := rfl
    have hwindow : pmemOffset defaultConfig 0x30000000 + 4096 ≤ defaultConfig.MSIZE := by
      decide
    exact .inl ⟨by decide, by rw [hbase, FLASH_SIZE]; omega, by omega, by omega⟩
  words _ _ hi := imageOfCode_words (by rw [FLASH_SIZE]; omega) hi

end Ysyx.Nemu
