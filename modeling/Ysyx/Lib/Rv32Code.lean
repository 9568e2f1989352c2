import Ysyx.Lib.Align
import Ysyx.Lib.Leads
import Ysyx.Lib.Rv32
import Ysyx.Lib.Words

/-! RV32I code at an address: assembly source with labels, the assembler that resolves them, and
total correctness of code that computes in registers. A line of source is an instruction, or a
jump that names its target; the instruction it becomes holds the distance. -/

namespace Ysyx.Rv32

open Bytes

inductive Line (L : Type) where
  | label (l : L)
  | insn (i : Instr)
  | branch (o : BOp) (rs1 rs2 : Reg) (l : L)
  | jal (rd : Reg) (l : L)

section Source

variable {L : Type}

def Line.size : Line L → ℕ
  | .label _ => 0
  | _ => 1

/-- The number of instructions before a label. -/
def labelAt [DecidableEq L] (l : L) : List (Line L) → ℕ
  | [] => 0
  | .label l' :: src => if l' = l then 0 else labelAt l src
  | line :: src => labelAt l src + line.size

/-- The instruction `k` of the code that a line becomes, where `pos` has the labels. -/
def Line.assemble (pos : L → ℕ) (k : ℕ) : Line L → List Instr
  | .label _ => []
  | .insn i => [i]
  | .branch o rs1 rs2 l => [.branch o rs1 rs2 (BitVec.ofInt 12 (2 * (pos l - k)))]
  | .jal rd l => [.jal rd (BitVec.ofInt 20 (2 * (pos l - k)))]

def assembleFrom (pos : L → ℕ) : ℕ → List (Line L) → List Instr
  | _, [] => []
  | k, line :: src => line.assemble pos k ++ assembleFrom pos (k + line.size) src

def assemble [DecidableEq L] (src : List (Line L)) : List Instr :=
  assembleFrom (labelAt · src) 0 src

namespace Asm

def ra : Reg := 1
def t0 : Reg := 5
def a0 : Reg := 10
def a1 : Reg := 11
def a2 : Reg := 12
def a3 : Reg := 13

variable (rd rs rs1 rs2 : Reg) (l : L)

def mv : Line L := .insn (.opImm .addi rd rs 0)
def li (imm : BitVec 12) : Line L := .insn (.opImm .addi rd 0 imm)
def neg : Line L := .insn (.op .sub rd 0 rs)
def jr : Line L := .insn (.jalr 0 rs 0)
def ret : Line L := jr ra
def j : Line L := .jal 0 l
def call : Line L := .jal ra l
def beqz : Line L := .branch .beq rs 0 l
def bnez : Line L := .branch .bne rs 0 l
def bltz : Line L := .branch .blt rs 0 l
def bgez : Line L := .branch .bge rs 0 l
def bgtz : Line L := .branch .blt 0 rs l
def blez : Line L := .branch .bge 0 rs l
def bgeu : Line L := .branch .bgeu rs1 rs2 l
def bltu : Line L := .branch .bltu rs1 rs2 l
def bgtu : Line L := .branch .bltu rs2 rs1 l

end Asm

end Source

/-- One instruction of the code at `a`. -/
def CodeStep (a : Word) (code : List Instr) (s s' : State) : Prop :=
  ∃ k i, s.pc = slot a k ∧ code[k]? = some i ∧ s' = i.exec s

abbrev Regs := Reg → Word

namespace Regs

/-- What an instruction reads, and what writing a register leaves to be read. -/
def get (x : Regs) (r : Reg) : Word := if r = 0 then 0 else x r

def set (x : Regs) (rd : Reg) (v : Word) : Regs :=
  fun q => if q = 0 then 0 else if q = rd then v else x q

theorem get_set (x : Regs) (rd r : Reg) (v : Word) :
    (x.set rd v).get r = if r = 0 then 0 else if r = rd then v else x.get r := by
  simp only [get, set]
  split_ifs <;> rfl

@[simp] theorem get_zero (x : Regs) : x.get 0 = 0 := if_pos rfl

@[simp] theorem get_set_self (x : Regs) {rd : Reg} (v : Word) (h : rd ≠ 0) :
    (x.set rd v).get rd = v := by rw [get_set, if_neg h, if_pos rfl]

theorem get_set_ne (x : Regs) {rd r : Reg} (v : Word) (h : r ≠ rd) :
    (x.set rd v).get r = x.get r := by
  rw [get_set, if_neg h]
  split_ifs with h0
  · rw [h0, get_zero]
  · rfl

end Regs

def Instr.isAlu : Instr → Bool
  | .op .. | .opImm .. | .shiftImm .. | .lui .. => true
  | _ => false

def Instr.alu : Instr → Regs → Regs
  | .op o rd rs1 rs2, x => x.set rd (o.eval (x.get rs1) (x.get rs2))
  | .opImm o rd rs1 imm, x => x.set rd (o.eval (x.get rs1) (imm.signExtend 32))
  | .shiftImm o rd rs1 shamt, x => x.set rd (o.eval (x.get rs1) shamt)
  | .lui rd imm, x => x.set rd (imm ++ 0#12)
  | _, x => x

def alus (part : List Instr) (x : Regs) : Regs := part.foldl (fun x i => i.alu x) x

@[simp] theorem alus_nil (x : Regs) : alus [] x = x := rfl

@[simp] theorem alus_cons (i : Instr) (is : List Instr) (x : Regs) :
    alus (i :: is) x = alus is (i.alu x) := rfl

def Instr.dst : Instr → Reg
  | .op _ rd _ _ | .opImm _ rd _ _ | .shiftImm _ rd _ _ | .lui rd _ => rd
  | _ => 0

theorem alu_kept (i : Instr) (x : Regs) {r : Reg} (h : r ≠ i.dst) : (i.alu x).get r = x.get r := by
  cases i with
  | op | opImm | shiftImm | lui => exact Regs.get_set_ne x _ h
  | _ => rfl

theorem alus_kept {part : List Instr} (ws : List Reg) (hws : part.all fun i => i.dst ∈ ws)
    (x : Regs) {r : Reg} (hr : r ∉ ws) : (alus part x).get r = x.get r := by
  induction part generalizing x with
  | nil => rfl
  | cons i is ih =>
    rw [List.all_cons, Bool.and_eq_true, decide_eq_true_iff] at hws
    have hne : r ≠ i.dst := fun h => hr (h ▸ hws.1)
    rw [alus_cons, ih hws.2, alu_kept i x hne]

section Runs

variable {a : Word} {code : List Instr} {k t : ℕ} {x : Regs} {m : Word → Byte} {Q : State → Prop}

theorem slot_add_offset {n : ℕ} {d : BitVec n} (h : offset d = BitVec.ofInt 32 (4 * (t - k))) :
    slot a k + offset d = slot a t := by
  have hk : BitVec.ofNat 32 (4 * k) + BitVec.ofInt 32 (4 * (t - k)) = BitVec.ofNat 32 (4 * t) := by
    rw [← BitVec.ofInt_natCast, ← BitVec.ofInt_natCast, ← BitVec.ofInt_add]
    congr 1
    push_cast
    ring
  rw [h, slot, slot, add_assoc, hk]

theorem exec_alu {i : Instr} (h : i.isAlu) :
    i.exec ⟨x, slot a k, m⟩ = ⟨i.alu x, slot a (k + 1), m⟩ := by
  cases i with
  | op | opImm | shiftImm | lui => rw [← slot_succ]; rfl
  | _ => cases h

theorem leads_alus (part : List Instr) (halu : part.all Instr.isAlu)
    (hpart : part <+: code.drop k)
    (h : Leads (CodeStep a code) ⟨alus part x, slot a (k + part.length), m⟩ Q) :
    Leads (CodeStep a code) ⟨x, slot a k, m⟩ Q := by
  induction part generalizing k x with
  | nil => exact h
  | cons i is ih =>
    obtain ⟨rest, hrest⟩ := hpart
    rw [List.all_cons, Bool.and_eq_true] at halu
    have hi : code[k]? = some i := by
      rw [← Nat.add_zero k, ← List.getElem?_drop, ← hrest]
      rfl
    refine .head ⟨k, i, rfl, hi, (exec_alu halu.1).symm⟩ (ih halu.2 ⟨rest, ?_⟩ ?_)
    · rw [← List.drop_drop, ← hrest]
      rfl
    · rwa [List.length_cons, Nat.add_comm is.length, ← Nat.add_assoc] at h

variable {o : BOp} {rs1 rs2 : Reg} {d : BitVec 12}

theorem leads_branch (hi : code[k]? = some (.branch o rs1 rs2 d))
    (hd : offset d = BitVec.ofInt 32 (4 * (t - k)))
    (htaken : o.taken (x.get rs1) (x.get rs2) = true →
      Leads (CodeStep a code) ⟨x, slot a t, m⟩ Q)
    (hnot : o.taken (x.get rs1) (x.get rs2) = false →
      Leads (CodeStep a code) ⟨x, slot a (k + 1), m⟩ Q) :
    Leads (CodeStep a code) ⟨x, slot a k, m⟩ Q := by
  have hexec : (Instr.branch o rs1 rs2 d).exec ⟨x, slot a k, m⟩ =
      if o.taken (x.get rs1) (x.get rs2) then ⟨x, slot a t, m⟩ else ⟨x, slot a (k + 1), m⟩ := by
    rw [← slot_add_offset hd, ← slot_succ]
    rfl
  refine .head ⟨k, _, rfl, hi, rfl⟩ ?_
  rw [hexec]
  cases htake : o.taken (x.get rs1) (x.get rs2) with
  | true => exact htaken htake
  | false => exact hnot htake

theorem leads_jal {rd : Reg} {d : BitVec 20} (hi : code[k]? = some (.jal rd d))
    (hd : offset d = BitVec.ofInt 32 (4 * (t - k)))
    (h : Leads (CodeStep a code) ⟨x.set rd (slot a (k + 1)), slot a t, m⟩ Q) :
    Leads (CodeStep a code) ⟨x, slot a k, m⟩ Q := by
  refine .head ⟨k, _, rfl, hi, ?_⟩ h
  rw [← slot_add_offset hd, ← slot_succ]
  rfl

theorem leads_jr {rs : Reg} (hi : code[k]? = some (.jalr 0 rs 0))
    (h : Leads (CodeStep a code) ⟨x.set 0 0, x.get rs &&& ~~~1, m⟩ Q) :
    Leads (CodeStep a code) ⟨x, slot a k, m⟩ Q := by
  have hset : (State.write ⟨x, slot a k, m⟩ 0 (slot a k + 4)).x = x.set 0 0 := by
    funext q
    simp only [State.write, Regs.set]
    split_ifs <;> rfl
  refine .head ⟨k, _, rfl, hi, ?_⟩ h
  rw [← hset, Instr.exec, show (0 : BitVec 12).signExtend 32 = 0#32 from rfl, BitVec.add_zero]
  rfl

theorem slot_and_not_one (ha : a.toNat % 4 = 0) (k : ℕ) : slot a k &&& ~~~1 = slot a k := by
  have hround := toNat_and_not_mask (k := 1) (slot a k)
  have hslot : (slot a k).toNat = (a.toNat + 4 * k) % 2 ^ 32 := by
    rw [slot, BitVec.toNat_add, BitVec.toNat_ofNat, Nat.add_mod_mod]
  rw [← BitVec.toNat_inj]
  refine hround.trans ?_
  omega

end Runs

end Ysyx.Rv32
