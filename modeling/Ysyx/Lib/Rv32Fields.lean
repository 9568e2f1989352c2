import Ysyx.Lib.Rv32

/-! Reading the fields of an encoded instruction back. Every format is the
R format with its immediate spread over some of the fields, so the field
lemmas are stated for `encodeR` only. -/

namespace Ysyx.Rv32

open Bytes

def opcode (w : Word) : BitVec 7 := w.extractLsb' 0 7
def rd (w : Word) : Reg := w.extractLsb' 7 5
def funct3 (w : Word) : BitVec 3 := w.extractLsb' 12 3
def rs1 (w : Word) : Reg := w.extractLsb' 15 5
def rs2 (w : Word) : Reg := w.extractLsb' 20 5
def funct7 (w : Word) : BitVec 7 := w.extractLsb' 25 7

section R

variable (f7 : BitVec 7) (r2 r1 : Reg) (f3 : BitVec 3) (r : Reg) (op : BitVec 7)

@[simp] theorem opcode_encodeR : opcode (encodeR f7 r2 r1 f3 r op) = op := by
  apply BitVec.eq_of_getLsbD_eq
  intro k hk
  simp only [opcode, encodeR, BitVec.getLsbD_extractLsb', BitVec.getLsbD_append]
  grind

@[simp] theorem rd_encodeR : rd (encodeR f7 r2 r1 f3 r op) = r := by
  apply BitVec.eq_of_getLsbD_eq
  intro k hk
  simp only [rd, encodeR, BitVec.getLsbD_extractLsb', BitVec.getLsbD_append]
  grind

@[simp] theorem funct3_encodeR : funct3 (encodeR f7 r2 r1 f3 r op) = f3 := by
  apply BitVec.eq_of_getLsbD_eq
  intro k hk
  simp only [funct3, encodeR, BitVec.getLsbD_extractLsb', BitVec.getLsbD_append]
  grind

@[simp] theorem rs1_encodeR : rs1 (encodeR f7 r2 r1 f3 r op) = r1 := by
  apply BitVec.eq_of_getLsbD_eq
  intro k hk
  simp only [rs1, encodeR, BitVec.getLsbD_extractLsb', BitVec.getLsbD_append]
  grind

@[simp] theorem rs2_encodeR : rs2 (encodeR f7 r2 r1 f3 r op) = r2 := by
  apply BitVec.eq_of_getLsbD_eq
  intro k hk
  simp only [rs2, encodeR, BitVec.getLsbD_extractLsb', BitVec.getLsbD_append]
  grind

@[simp] theorem funct7_encodeR : funct7 (encodeR f7 r2 r1 f3 r op) = f7 := by
  apply BitVec.eq_of_getLsbD_eq
  intro k hk
  simp only [funct7, encodeR, BitVec.getLsbD_extractLsb', BitVec.getLsbD_append]
  grind

end R

theorem encodeR_fields (w : Word) :
    encodeR (funct7 w) (rs2 w) (rs1 w) (funct3 w) (rd w) (opcode w) = w := by
  apply BitVec.eq_of_getLsbD_eq
  intro k hk
  simp only [encodeR, funct7, rs2, rs1, funct3, rd, opcode, BitVec.getLsbD_extractLsb',
    BitVec.getLsbD_append]
  grind

theorem encodeI_eq (imm : BitVec 12) (r1 : Reg) (f3 : BitVec 3) (r : Reg) (op : BitVec 7) :
    encodeI imm r1 f3 r op = encodeR (imm.extractLsb' 5 7) (imm.extractLsb' 0 5) r1 f3 r op := by
  apply BitVec.eq_of_getLsbD_eq
  intro k hk
  simp only [encodeI, encodeR, BitVec.getLsbD_extractLsb', BitVec.getLsbD_append]
  grind

theorem encodeS_eq (imm : BitVec 12) (r2 r1 : Reg) (f3 : BitVec 3) (op : BitVec 7) :
    encodeS imm r2 r1 f3 op =
      encodeR (imm.extractLsb' 5 7) r2 r1 f3 (imm.extractLsb' 0 5) op := rfl

theorem encodeB_eq (imm : BitVec 12) (r2 r1 : Reg) (f3 : BitVec 3) (op : BitVec 7) :
    encodeB imm r2 r1 f3 op =
      encodeR (imm.extractLsb' 11 1 ++ imm.extractLsb' 4 6) r2 r1 f3
        (imm.extractLsb' 0 4 ++ imm.extractLsb' 10 1) op := by
  apply BitVec.eq_of_getLsbD_eq
  intro k hk
  simp only [encodeB, encodeR, BitVec.getLsbD_extractLsb', BitVec.getLsbD_append]
  grind

theorem encodeU_eq (imm : BitVec 20) (r : Reg) (op : BitVec 7) :
    encodeU imm r op =
      encodeR (imm.extractLsb' 13 7) (imm.extractLsb' 8 5) (imm.extractLsb' 3 5)
        (imm.extractLsb' 0 3) r op := by
  apply BitVec.eq_of_getLsbD_eq
  intro k hk
  simp only [encodeU, encodeR, BitVec.getLsbD_extractLsb', BitVec.getLsbD_append]
  grind

/-- The immediate of a J word as a U word carries it. -/
def shuffleJ (imm : BitVec 20) : BitVec 20 :=
  imm.extractLsb' 19 1 ++ imm.extractLsb' 0 10 ++ imm.extractLsb' 10 1 ++ imm.extractLsb' 11 8

theorem encodeJ_eq (imm : BitVec 20) (r : Reg) (op : BitVec 7) :
    encodeJ imm r op = encodeU (shuffleJ imm) r op := rfl

@[simp] theorem opcode_encodeI (imm : BitVec 12) (r1 : Reg) (f3 : BitVec 3) (r : Reg)
    (op : BitVec 7) : opcode (encodeI imm r1 f3 r op) = op := by
  rw [encodeI_eq, opcode_encodeR]

@[simp] theorem funct3_encodeI (imm : BitVec 12) (r1 : Reg) (f3 : BitVec 3) (r : Reg)
    (op : BitVec 7) : funct3 (encodeI imm r1 f3 r op) = f3 := by
  rw [encodeI_eq, funct3_encodeR]

@[simp] theorem rd_encodeI (imm : BitVec 12) (r1 : Reg) (f3 : BitVec 3) (r : Reg)
    (op : BitVec 7) : rd (encodeI imm r1 f3 r op) = r := by
  rw [encodeI_eq, rd_encodeR]

@[simp] theorem rs1_encodeI (imm : BitVec 12) (r1 : Reg) (f3 : BitVec 3) (r : Reg)
    (op : BitVec 7) : rs1 (encodeI imm r1 f3 r op) = r1 := by
  rw [encodeI_eq, rs1_encodeR]

@[simp] theorem opcode_encodeS (imm : BitVec 12) (r2 r1 : Reg) (f3 : BitVec 3) (op : BitVec 7) :
    opcode (encodeS imm r2 r1 f3 op) = op := by
  rw [encodeS_eq, opcode_encodeR]

@[simp] theorem funct3_encodeS (imm : BitVec 12) (r2 r1 : Reg) (f3 : BitVec 3) (op : BitVec 7) :
    funct3 (encodeS imm r2 r1 f3 op) = f3 := by
  rw [encodeS_eq, funct3_encodeR]

@[simp] theorem rs1_encodeS (imm : BitVec 12) (r2 r1 : Reg) (f3 : BitVec 3) (op : BitVec 7) :
    rs1 (encodeS imm r2 r1 f3 op) = r1 := by
  rw [encodeS_eq, rs1_encodeR]

@[simp] theorem rs2_encodeS (imm : BitVec 12) (r2 r1 : Reg) (f3 : BitVec 3) (op : BitVec 7) :
    rs2 (encodeS imm r2 r1 f3 op) = r2 := by
  rw [encodeS_eq, rs2_encodeR]

@[simp] theorem opcode_encodeU (imm : BitVec 20) (r : Reg) (op : BitVec 7) :
    opcode (encodeU imm r op) = op := by
  rw [encodeU_eq, opcode_encodeR]

@[simp] theorem rd_encodeU (imm : BitVec 20) (r : Reg) (op : BitVec 7) :
    rd (encodeU imm r op) = r := by
  rw [encodeU_eq, rd_encodeR]

theorem extract_immI (imm : BitVec 12) (r1 : Reg) (f3 : BitVec 3) (r : Reg) (op : BitVec 7) :
    (encodeI imm r1 f3 r op).extractLsb' 20 12 = imm := by
  apply BitVec.eq_of_getLsbD_eq
  intro k hk
  simp only [encodeI, BitVec.getLsbD_extractLsb', BitVec.getLsbD_append]
  grind

theorem extract_immS (imm : BitVec 12) (r2 r1 : Reg) (f3 : BitVec 3) (op : BitVec 7) :
    (encodeS imm r2 r1 f3 op).extractLsb' 25 7 = imm.extractLsb' 5 7 ∧
    (encodeS imm r2 r1 f3 op).extractLsb' 7 5 = imm.extractLsb' 0 5 := by
  rw [encodeS_eq]
  exact ⟨funct7_encodeR _ _ _ _ _ _, rd_encodeR _ _ _ _ _ _⟩

theorem extract_immU (imm : BitVec 20) (r : Reg) (op : BitVec 7) :
    (encodeU imm r op).extractLsb' 12 20 = imm := by
  apply BitVec.eq_of_getLsbD_eq
  intro k hk
  simp only [encodeU, BitVec.getLsbD_extractLsb', BitVec.getLsbD_append]
  grind

theorem extract_immB (imm : BitVec 12) (r2 r1 : Reg) (f3 : BitVec 3) (op : BitVec 7) :
    (encodeB imm r2 r1 f3 op).extractLsb' 31 1 = imm.extractLsb' 11 1 ∧
    (encodeB imm r2 r1 f3 op).extractLsb' 25 6 = imm.extractLsb' 4 6 ∧
    (encodeB imm r2 r1 f3 op).extractLsb' 8 4 = imm.extractLsb' 0 4 ∧
    (encodeB imm r2 r1 f3 op).extractLsb' 7 1 = imm.extractLsb' 10 1 := by
  refine ⟨?_, ?_, ?_, ?_⟩
  all_goals
    apply BitVec.eq_of_getLsbD_eq
    intro k hk
    simp only [encodeB, BitVec.getLsbD_extractLsb', BitVec.getLsbD_append]
    grind

end Ysyx.Rv32
