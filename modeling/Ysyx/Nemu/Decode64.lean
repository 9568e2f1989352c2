import Ysyx.Nemu.Decode
import Ysyx.Nemu.Inst64

/-! What the riscv64 table selects and what its operand decoder extracts, in terms of the instruction
that the word encodes. -/

namespace Ysyx.Nemu.Riscv64

open Bytes Rv32

def InstName.shape : InstName → Shape
  | .li => .i 0b000 0b0010011
  | .auipc => .u 0b0010111
  | .lui => .u 0b0110111
  | .lb => .i 0b000 0b0000011
  | .lbu => .i 0b100 0b0000011
  | .sb => .i 0b000 0b0100011
  | .jal => .u 0b1101111
  | .addi => .i 0b000 0b0010011
  | .add => .r 0b0000000 0b000 0b0110011
  | .sw => .i 0b010 0b0100011
  | .jalr => .i 0b000 0b1100111
  | .lw => .i 0b010 0b0000011
  | .sub => .r 0b0100000 0b000 0b0110011
  | .sltiu => .i 0b011 0b0010011
  | .beq => .i 0b000 0b1100011
  | .bne => .i 0b001 0b1100011
  | .sltu => .r 0b0000000 0b011 0b0110011
  | .sh => .i 0b001 0b0100011
  | .sra => .r 0b0100000 0b101 0b0110011
  | .srai => .r 0b0100000 0b101 0b0010011
  | .andi => .i 0b111 0b0010011
  | .sll => .r 0b0000000 0b001 0b0110011
  | .xori => .i 0b100 0b0010011
  | .bge => .i 0b101 0b1100011
  | .srl => .r 0b0000000 0b101 0b0110011
  | .srli => .r 0b0000000 0b101 0b0010011
  | .bgeu => .i 0b111 0b1100011
  | .slli => .r 0b0000000 0b001 0b0010011
  | .mul => .r 0b0000001 0b000 0b0110011
  | .mulh => .r 0b0000001 0b001 0b0110011
  | .div => .r 0b0000001 0b100 0b0110011
  | .divu => .r 0b0000001 0b101 0b0110011
  | .rem => .r 0b0000001 0b110 0b0110011
  | .blt => .i 0b100 0b1100011
  | .bltu => .i 0b110 0b1100011
  | .slt => .r 0b0000000 0b010 0b0110011
  | .lh => .i 0b001 0b0000011
  | .lhu => .i 0b101 0b0000011
  | .remu => .r 0b0000001 0b111 0b0110011
  | .and => .r 0b0000000 0b111 0b0110011
  | .xor => .r 0b0000000 0b100 0b0110011
  | .or => .r 0b0000000 0b110 0b0110011
  | .ebreak => .full 0x00100073
  | .inv => .any

def InstName.type : InstName → OperandType
  | .li | .lb | .lbu | .addi | .jalr | .lw | .sltiu | .srai | .andi | .xori | .srli | .slli | .lh
  | .lhu => .I
  | .auipc | .lui => .U
  | .sb | .sw | .sh => .S
  | .jal => .J
  | .beq | .bne | .bge | .bgeu | .blt | .bltu => .B
  | .ebreak | .inv => .N
  | _ => .R

theorem instpats_decode :
    ∀ p ∈ instpats, patternDecode p.pattern.toList = .ok p.name.shape.pattern := by
  simp only [instpats, List.forall_mem_cons, List.not_mem_nil, false_implies, implies_true,
    and_true]
  and_intros
  all_goals exact patternDecode_ofList (by decide +kernel)

theorem instpats_type : ∀ p ∈ instpats, p.type = p.name.type := by
  simp only [instpats, List.forall_mem_cons, List.not_mem_nil, false_implies, implies_true,
    and_true]
  and_intros
  all_goals rfl

theorem selected_eq (w : Word) : selected w = instpats.find? (·.name.shape.test w) :=
  List.find?_congr fun p hp => by
    rw [Instpat.hits, instpats_decode p hp]
    exact hits_pattern _ _

theorem selected_spec {w : Word} {p : Instpat} (h : selected w = some p) :
    p.name.shape.test w = true ∧ p.type = p.name.type := by
  rw [selected_eq] at h
  have hp := List.mem_of_find?_eq_some h
  have htest := List.find?_some h
  exact ⟨htest, instpats_type p hp⟩

def instrOf (w : Word) : InstName → Option Rv64.Instr
  | .li | .addi => some (.opImm .addi (rd w) (rs1 w) (Rv64.immI w))
  | .sltiu => some (.opImm .sltiu (rd w) (rs1 w) (Rv64.immI w))
  | .andi => some (.opImm .andi (rd w) (rs1 w) (Rv64.immI w))
  | .xori => some (.opImm .xori (rd w) (rs1 w) (Rv64.immI w))
  | .slli => some (.shiftImm .slli (rd w) (rs1 w) (Rv64.shamt w))
  | .srli => some (.shiftImm .srli (rd w) (rs1 w) (Rv64.shamt w))
  | .srai => some (.shiftImm .srai (rd w) (rs1 w) (Rv64.shamt w))
  | .lui => some (.lui (rd w) (Rv64.immU w))
  | .auipc => some (.auipc (rd w) (Rv64.immU w))
  | .jal => some (.jal (rd w) (Rv64.immJ w))
  | .jalr => some (.jalr (rd w) (rs1 w) (Rv64.immI w))
  | .lb => some (.load .lb (rd w) (rs1 w) (Rv64.immI w))
  | .lh => some (.load .lh (rd w) (rs1 w) (Rv64.immI w))
  | .lw => some (.load .lw (rd w) (rs1 w) (Rv64.immI w))
  | .lbu => some (.load .lbu (rd w) (rs1 w) (Rv64.immI w))
  | .lhu => some (.load .lhu (rd w) (rs1 w) (Rv64.immI w))
  | .sb => some (.store .sb (rs1 w) (rs2 w) (Rv64.immS w))
  | .sh => some (.store .sh (rs1 w) (rs2 w) (Rv64.immS w))
  | .sw => some (.store .sw (rs1 w) (rs2 w) (Rv64.immS w))
  | .beq => some (.branch .beq (rs1 w) (rs2 w) (Rv64.immB w))
  | .bne => some (.branch .bne (rs1 w) (rs2 w) (Rv64.immB w))
  | .blt => some (.branch .blt (rs1 w) (rs2 w) (Rv64.immB w))
  | .bge => some (.branch .bge (rs1 w) (rs2 w) (Rv64.immB w))
  | .bltu => some (.branch .bltu (rs1 w) (rs2 w) (Rv64.immB w))
  | .bgeu => some (.branch .bgeu (rs1 w) (rs2 w) (Rv64.immB w))
  | .add => some (.op .add (rd w) (rs1 w) (rs2 w))
  | .sub => some (.op .sub (rd w) (rs1 w) (rs2 w))
  | .sll => some (.op .sll (rd w) (rs1 w) (rs2 w))
  | .slt => some (.op .slt (rd w) (rs1 w) (rs2 w))
  | .sltu => some (.op .sltu (rd w) (rs1 w) (rs2 w))
  | .xor => some (.op .xor (rd w) (rs1 w) (rs2 w))
  | .srl => some (.op .srl (rd w) (rs1 w) (rs2 w))
  | .sra => some (.op .sra (rd w) (rs1 w) (rs2 w))
  | .or => some (.op .or (rd w) (rs1 w) (rs2 w))
  | .and => some (.op .and (rd w) (rs1 w) (rs2 w))
  | .mul => some (.mop .mul (rd w) (rs1 w) (rs2 w))
  | .mulh => some (.mop .mulh (rd w) (rs1 w) (rs2 w))
  | .div => some (.mop .div (rd w) (rs1 w) (rs2 w))
  | .divu => some (.mop .divu (rd w) (rs1 w) (rs2 w))
  | .rem => some (.mop .rem (rd w) (rs1 w) (rs2 w))
  | .remu => some (.mop .remu (rd w) (rs1 w) (rs2 w))
  | .ebreak | .inv => none

theorem funct6_eq (w : Word) : Rv64.funct6 w = (funct7 w).extractLsb' 1 6 := by
  apply BitVec.eq_of_getLsbD_eq
  intro k hk
  simp only [Rv64.funct6, funct7, BitVec.getLsbD_extractLsb']
  grind

theorem decode_of_test {w : Word} {n : InstName} (h : n.shape.test w = true) (hinv : n ≠ .inv)
    (hebreak : n ≠ .ebreak) : Rv64.decode w = instrOf w n := by
  cases n
  case inv => exact absurd rfl hinv
  case ebreak => exact absurd rfl hebreak
  all_goals
    simp only [InstName.shape, Shape.test, Bool.and_eq_true, beq_iff_eq] at h
  case auipc | lui | jal =>
    rw [Rv64.decode, h]
    rfl
  case add | sub | sltu | sra | sll | srl | slt | and | xor | or =>
    obtain ⟨hop, h3, h7⟩ := h
    rw [Rv64.decode, hop]
    simp only [Rv64.decodeOp, h3, h7]
    rfl
  case mul | mulh | div | divu | rem | remu =>
    obtain ⟨hop, h3, h7⟩ := h
    rw [Rv64.decode, hop]
    simp only [Rv64.decodeMop, h3, h7]
    rfl
  case srai | srli | slli =>
    obtain ⟨hop, h3, h7⟩ := h
    rw [Rv64.decode, hop]
    simp only [Rv64.decodeShift, funct6_eq, h3, h7]
    rfl
  all_goals
    obtain ⟨hop, h3⟩ := h
    rw [Rv64.decode, hop]
    simp only [Rv64.decodeImm, Rv64.decodeBranch, Rv64.decodeLoad, Rv64.decodeStore, h3]
    rfl

theorem shamt_toNat {w : Word} (h : (funct7 w).getLsbD 0 = false) :
    (Rv64.shamt w).toNat = (rs2 w).toNat := by
  have heq : Rv64.shamt w = (rs2 w).setWidth 6 := by
    apply BitVec.eq_of_getLsbD_eq
    intro k hk
    simp only [funct7, BitVec.getLsbD_extractLsb'] at h
    simp only [Rv64.shamt, rs2, BitVec.getLsbD_extractLsb', BitVec.getLsbD_setWidth]
    grind
  rw [heq, BitVec.toNat_setWidth_of_le (by decide)]

theorem immI_eq (w : Word) : immI w = (Rv64.immI w).signExtend 64 := by
  rw [immI, BITS_eq w (n := 12) (by decide) (by decide), SEXT_setWidth _ (by decide), Rv64.immI]

theorem immI_append (w : Word) : Rv64.immI w = funct7 w ++ rs2 w := by
  apply BitVec.eq_of_getLsbD_eq
  intro k hk
  simp only [Rv64.immI, funct7, rs2, BitVec.getLsbD_extractLsb', BitVec.getLsbD_append]
  grind

theorem immU_eq (w : Word) : immU w = (Rv64.immU w ++ 0#12).signExtend 64 := by
  rw [immU, BITS_eq w (n := 20) (by decide) (by decide), SEXT_setWidth _ (by decide), Rv64.immU]
  apply BitVec.eq_of_getLsbD_eq
  intro k hk
  simp only [BitVec.getLsbD_shiftLeft, BitVec.getLsbD_signExtend, BitVec.getLsbD_append,
    BitVec.msb_append]
  grind

theorem immS_eq (w : Word) : immS w = (Rv64.immS w).signExtend 64 := by
  rw [immS, BITS_eq w (n := 7) (by decide) (by decide), SEXT_setWidth _ (by decide),
    BITS_eq w (n := 5) (by decide) (by decide), Rv64.immS]
  apply BitVec.eq_of_getLsbD_eq
  intro k hk
  simp only [BitVec.getLsbD_shiftLeft, BitVec.getLsbD_signExtend, BitVec.getLsbD_append,
    BitVec.getLsbD_or, BitVec.getLsbD_setWidth, BitVec.msb_append]
  grind

theorem immB_eq (w : Word) : immB w = Rv64.offset (Rv64.immB w) := by
  rw [immB, BITS_eq w (n := 1) (by decide) (by decide), SEXT_setWidth _ (by decide),
    BITS_eq w (n := 6) (by decide) (by decide), BITS_eq w (n := 4) (by decide) (by decide),
    BITS_eq w (n := 1) (by decide) (by decide), Rv64.offset, Rv64.immB]
  apply BitVec.eq_of_getLsbD_eq
  intro k hk
  simp only [BitVec.getLsbD_shiftLeft, BitVec.getLsbD_signExtend, BitVec.getLsbD_append,
    BitVec.getLsbD_or, BitVec.getLsbD_setWidth, BitVec.msb_append]
  grind

theorem immJ_eq (w : Word) : immJ w = Rv64.offset (Rv64.immJ w) := by
  rw [immJ, BITS_eq w (n := 1) (by decide) (by decide), SEXT_setWidth _ (by decide),
    BITS_eq w (n := 10) (by decide) (by decide), BITS_eq w (n := 1) (by decide) (by decide),
    BITS_eq w (n := 8) (by decide) (by decide), Rv64.offset, Rv64.immJ]
  apply BitVec.eq_of_getLsbD_eq
  intro k hk
  simp only [BitVec.getLsbD_shiftLeft, BitVec.getLsbD_signExtend, BitVec.getLsbD_append,
    BitVec.getLsbD_or, BitVec.getLsbD_setWidth, BitVec.msb_append]
  grind

end Ysyx.Nemu.Riscv64
