import Ysyx.Lib.Rv32Fields
import Ysyx.Nemu.Inst

/-! What the pattern table selects and what the operand decoder extracts, for
the encodings of the RV32I instructions. Both are reduced to the fields of the
word: a pattern is characterised by the fields it fixes, and each immediate by
the one the encoding was built from. -/

namespace Ysyx.Nemu

open Bytes Rv32

/-- The fields that a pattern of the table fixes. -/
inductive Shape where
  | r (f7 : BitVec 7) (f3 : BitVec 3) (op : BitVec 7)
  | i (f3 : BitVec 3) (op : BitVec 7)
  | u (op : BitVec 7)
  | full (w : Word)
  | any
  deriving DecidableEq, Repr

def Shape.pattern : Shape → Pattern
  | .r f7 f3 op => ⟨(encodeR f7 0 0 f3 0 op).setWidth 64, 0xfe00707f, 0⟩
  | .i f3 op => ⟨(encodeR 0 0 0 f3 0 op).setWidth 64, 0x707f, 0⟩
  | .u op => ⟨(encodeR 0 0 0 0 0 op).setWidth 64, 0x7f, 0⟩
  | .full w => ⟨w.setWidth 64, 0xffffffff, 0⟩
  | .any => ⟨0, 0, 32⟩

/-- The opcode is compared first, so a different opcode settles the test. -/
def Shape.test : Shape → Word → Bool
  | .r f7 f3 op, w => opcode w == op && (funct3 w == f3 && funct7 w == f7)
  | .i f3 op, w => opcode w == op && funct3 w == f3
  | .u op, w => opcode w == op
  | .full v, w => opcode w == opcode v && w == v
  | .any, _ => true

def InstName.shape : InstName → Shape
  | .add => .r 0b0000000 0b000 0b0110011
  | .sub => .r 0b0100000 0b000 0b0110011
  | .sll => .r 0b0000000 0b001 0b0110011
  | .slt => .r 0b0000000 0b010 0b0110011
  | .sltu => .r 0b0000000 0b011 0b0110011
  | .xor => .r 0b0000000 0b100 0b0110011
  | .srl => .r 0b0000000 0b101 0b0110011
  | .sra => .r 0b0100000 0b101 0b0110011
  | .or => .r 0b0000000 0b110 0b0110011
  | .and => .r 0b0000000 0b111 0b0110011
  | .addi => .i 0b000 0b0010011
  | .slli => .r 0b0000000 0b001 0b0010011
  | .slti => .i 0b010 0b0010011
  | .sltiu => .i 0b011 0b0010011
  | .xori => .i 0b100 0b0010011
  | .srli => .r 0b0000000 0b101 0b0010011
  | .srai => .r 0b0100000 0b101 0b0010011
  | .ori => .i 0b110 0b0010011
  | .andi => .i 0b111 0b0010011
  | .jalr => .i 0b000 0b1100111
  | .lb => .i 0b000 0b0000011
  | .lh => .i 0b001 0b0000011
  | .lw => .i 0b010 0b0000011
  | .lbu => .i 0b100 0b0000011
  | .lhu => .i 0b101 0b0000011
  | .sb => .i 0b000 0b0100011
  | .sh => .i 0b001 0b0100011
  | .sw => .i 0b010 0b0100011
  | .beq => .i 0b000 0b1100011
  | .bne => .i 0b001 0b1100011
  | .blt => .i 0b100 0b1100011
  | .bge => .i 0b101 0b1100011
  | .bltu => .i 0b110 0b1100011
  | .bgeu => .i 0b111 0b1100011
  | .lui => .u 0b0110111
  | .auipc => .u 0b0010111
  | .jal => .u 0b1101111
  | .mul => .r 0b0000001 0b000 0b0110011
  | .mulh => .r 0b0000001 0b001 0b0110011
  | .mulhu => .r 0b0000001 0b011 0b0110011
  | .div => .r 0b0000001 0b100 0b0110011
  | .divu => .r 0b0000001 0b101 0b0110011
  | .rem => .r 0b0000001 0b110 0b0110011
  | .remu => .r 0b0000001 0b111 0b0110011
  | .csrrw => .i 0b001 0b1110011
  | .csrrs => .i 0b010 0b1110011
  | .ecall => .full 0x00000073
  | .mret => .full 0x30200073
  | .ebreak => .full 0x00100073
  | .inv => .any

theorem patternDecode_ofList {l : List Char} {r : Except Fault Pattern} (h : patternDecode l = r) :
    patternDecode (String.ofList l).toList = r := by
  rw [String.toList_ofList, h]

/-- The table's patterns all decode, each to the mask and key of its shape. -/
theorem instpats_decode :
    ∀ p ∈ instpats, patternDecode p.pattern.toList = .ok p.name.shape.pattern := by
  simp only [instpats, List.forall_mem_cons, List.not_mem_nil, false_implies, implies_true,
    and_true]
  and_intros
  -- the literals unfold to their characters, which the kernel need not decode from UTF-8
  all_goals exact patternDecode_ofList (by decide +kernel)

theorem encodeR_and (f7 m7 : BitVec 7) (r2 m2 r1 m1 : Reg) (f3 m3 : BitVec 3) (r m : Reg)
    (op mop : BitVec 7) :
    encodeR f7 r2 r1 f3 r op &&& encodeR m7 m2 m1 m3 m mop =
      encodeR (f7 &&& m7) (r2 &&& m2) (r1 &&& m1) (f3 &&& m3) (r &&& m) (op &&& mop) := by
  unfold encodeR
  rw [BitVec.and_append (w := 25) (v := 7), BitVec.and_append (w := 20) (v := 5),
    BitVec.and_append (w := 17) (v := 3), BitVec.and_append (w := 12) (v := 5), BitVec.and_append]

theorem mask_fields (f7 m7 : BitVec 7) (r2 r1 : Reg) (f3 m3 : BitVec 3) (r : Reg)
    (op mop : BitVec 7) :
    (encodeR f7 r2 r1 f3 r op).setWidth 64 &&& (encodeR m7 0 0 m3 0 mop).setWidth 64 =
      (encodeR (f7 &&& m7) 0 0 (f3 &&& m3) 0 (op &&& mop)).setWidth 64 := by
  rw [← BitVec.setWidth_and, encodeR_and]
  simp only [BitVec.ofNat_eq_ofNat, BitVec.and_zero]

theorem mask_r (f7 : BitVec 7) (r2 r1 : Reg) (f3 : BitVec 3) (r : Reg) (op : BitVec 7) :
    (encodeR f7 r2 r1 f3 r op).setWidth 64 &&& (0xfe00707f : BitVec 64) =
      (encodeR f7 0 0 f3 0 op).setWidth 64 := by
  have hm : (0xfe00707f : BitVec 64) =
      (encodeR (.allOnes 7) 0 0 (.allOnes 3) 0 (.allOnes 7)).setWidth 64 := by decide
  simp only [hm, mask_fields, BitVec.and_allOnes]

theorem mask_i (f7 : BitVec 7) (r2 r1 : Reg) (f3 : BitVec 3) (r : Reg) (op : BitVec 7) :
    (encodeR f7 r2 r1 f3 r op).setWidth 64 &&& (0x707f : BitVec 64) =
      (encodeR 0 0 0 f3 0 op).setWidth 64 := by
  have hm : (0x707f : BitVec 64) =
      (encodeR 0 0 0 (.allOnes 3) 0 (.allOnes 7)).setWidth 64 := by decide
  rw [hm, mask_fields]
  simp only [BitVec.and_allOnes, BitVec.ofNat_eq_ofNat, BitVec.and_zero]

theorem mask_u (f7 : BitVec 7) (r2 r1 : Reg) (f3 : BitVec 3) (r : Reg) (op : BitVec 7) :
    (encodeR f7 r2 r1 f3 r op).setWidth 64 &&& (0x7f : BitVec 64) =
      (encodeR 0 0 0 0 0 op).setWidth 64 := by
  have hm : (0x7f : BitVec 64) = (encodeR 0 0 0 0 0 (.allOnes 7)).setWidth 64 := by decide
  rw [hm, mask_fields]
  simp only [BitVec.and_allOnes, BitVec.ofNat_eq_ofNat, BitVec.and_zero]

theorem mask_full (w : Word) : w.setWidth 64 &&& (0xffffffff : BitVec 64) = w.setWidth 64 := by
  apply BitVec.eq_of_getLsbD_eq
  intro k hk
  simp only [BitVec.getLsbD_and, BitVec.getLsbD_setWidth]
  interval_cases k <;> simp

theorem setWidth_inj {a b : Word} : a.setWidth 64 = b.setWidth 64 ↔ a = b := by
  refine ⟨fun h => ?_, fun h => by rw [h]⟩
  have := congrArg (BitVec.setWidth 32) h
  simpa using this

theorem hits_pattern (s : Shape) (w : Word) : s.pattern.hits w = s.test w := by
  have hf := encodeR_fields w
  rw [Bool.eq_iff_iff]
  cases s with
  | r f7 f3 op =>
    rw [← hf]
    simp only [Pattern.hits, Shape.pattern, Shape.test, BitVec.ushiftRight_zero, mask_r, beq_iff_eq,
      Bool.and_eq_true, setWidth_inj, opcode_encodeR, funct3_encodeR, funct7_encodeR]
    constructor
    · intro h
      exact ⟨by simpa using congrArg opcode h, by simpa using congrArg funct3 h,
        by simpa using congrArg funct7 h⟩
    · rintro ⟨rfl, rfl, rfl⟩
      rfl
  | i f3 op =>
    rw [← hf]
    simp only [Pattern.hits, Shape.pattern, Shape.test, BitVec.ushiftRight_zero, mask_i, beq_iff_eq,
      Bool.and_eq_true, setWidth_inj, opcode_encodeR, funct3_encodeR]
    constructor
    · intro h
      exact ⟨by simpa using congrArg opcode h, by simpa using congrArg funct3 h⟩
    · rintro ⟨rfl, rfl⟩
      rfl
  | u op =>
    rw [← hf]
    simp only [Pattern.hits, Shape.pattern, Shape.test, BitVec.ushiftRight_zero, mask_u, beq_iff_eq,
      setWidth_inj, opcode_encodeR]
    constructor
    · intro h
      simpa using congrArg opcode h
    · rintro rfl
      rfl
  | full v =>
    simp only [Pattern.hits, Shape.pattern, Shape.test, BitVec.ushiftRight_zero, mask_full,
      beq_iff_eq, Bool.and_eq_true, setWidth_inj]
    exact ⟨fun h => ⟨congrArg opcode h, h⟩, fun h => h.2⟩
  | any => simp [Pattern.hits, Shape.pattern, Shape.test]

theorem hits_eq_test {p : Instpat} (hp : p ∈ instpats) (w : Word) :
    p.hits w = p.name.shape.test w := by
  rw [Instpat.hits, instpats_decode p hp]
  exact hits_pattern _ _

theorem find_hits (w : Word) :
    instpats.find? (·.hits w) = instpats.find? (·.name.shape.test w) :=
  List.find?_congr fun _ hp => hits_eq_test hp w

/-- `Shape.test` with the fields already read, so that it computes on their literals. -/
def Shape.testFields : Shape → BitVec 7 → BitVec 3 → BitVec 7 → Word → Bool
  | .r f7 f3 op, g7, g3, o, _ => o == op && (g3 == f3 && g7 == f7)
  | .i f3 op, _, g3, o, _ => o == op && g3 == f3
  | .u op, _, _, o, _ => o == op
  | .full v, _, _, o, w => o == opcode v && w == v
  | .any, _, _, _, _ => true

theorem test_encodeR (s : Shape) (f7 : BitVec 7) (r2 r1 : Reg) (f3 : BitVec 3) (r : Reg)
    (op : BitVec 7) :
    s.test (encodeR f7 r2 r1 f3 r op) = s.testFields f7 f3 op (encodeR f7 r2 r1 f3 r op) := by
  cases s <;> simp [Shape.test, Shape.testFields]

def instName : Instr → InstName
  | .op .add .. => .add
  | .op .sub .. => .sub
  | .op .sll .. => .sll
  | .op .slt .. => .slt
  | .op .sltu .. => .sltu
  | .op .xor .. => .xor
  | .op .srl .. => .srl
  | .op .sra .. => .sra
  | .op .or .. => .or
  | .op .and .. => .and
  | .opImm .addi .. => .addi
  | .opImm .slti .. => .slti
  | .opImm .sltiu .. => .sltiu
  | .opImm .xori .. => .xori
  | .opImm .ori .. => .ori
  | .opImm .andi .. => .andi
  | .shiftImm .slli .. => .slli
  | .shiftImm .srli .. => .srli
  | .shiftImm .srai .. => .srai
  | .lui .. => .lui
  | .auipc .. => .auipc
  | .jal .. => .jal
  | .jalr .. => .jalr
  | .branch .beq .. => .beq
  | .branch .bne .. => .bne
  | .branch .blt .. => .blt
  | .branch .bge .. => .bge
  | .branch .bltu .. => .bltu
  | .branch .bgeu .. => .bgeu
  | .load .lb .. => .lb
  | .load .lh .. => .lh
  | .load .lw .. => .lw
  | .load .lbu .. => .lbu
  | .load .lhu .. => .lhu
  | .store .sb .. => .sb
  | .store .sh .. => .sh
  | .store .sw .. => .sw

def instType : Instr → OperandType
  | .op .. => .R
  | .opImm .. | .shiftImm .. | .jalr .. | .load .. => .I
  | .lui .. | .auipc .. => .U
  | .jal .. => .J
  | .branch .. => .B
  | .store .. => .S

theorem find_encode (i : Instr) : ∃ p, instpats.find? (·.hits i.encode) = some p ∧
    p.name = instName i ∧ p.type = instType i := by
  rw [find_hits]
  cases i with
  | op o rd rs1 rs2 =>
    simp only [Instr.encode, test_encodeR]
    cases o <;> exact ⟨_, rfl, rfl, rfl⟩
  | opImm o rd rs1 imm =>
    simp only [Instr.encode, encodeI_eq, test_encodeR]
    cases o <;> exact ⟨_, rfl, rfl, rfl⟩
  | shiftImm o rd rs1 shamt =>
    simp only [Instr.encode, test_encodeR]
    cases o <;> exact ⟨_, rfl, rfl, rfl⟩
  | lui rd imm =>
    simp only [Instr.encode, encodeU_eq, test_encodeR]
    exact ⟨_, rfl, rfl, rfl⟩
  | auipc rd imm =>
    simp only [Instr.encode, encodeU_eq, test_encodeR]
    exact ⟨_, rfl, rfl, rfl⟩
  | jal rd imm =>
    simp only [Instr.encode, encodeJ_eq, encodeU_eq, test_encodeR]
    exact ⟨_, rfl, rfl, rfl⟩
  | jalr rd rs1 imm =>
    simp only [Instr.encode, encodeI_eq, test_encodeR]
    exact ⟨_, rfl, rfl, rfl⟩
  | branch o rs1 rs2 imm =>
    simp only [Instr.encode, encodeB_eq, test_encodeR]
    cases o <;> exact ⟨_, rfl, rfl, rfl⟩
  | load o rd rs1 imm =>
    simp only [Instr.encode, encodeI_eq, test_encodeR]
    cases o <;> exact ⟨_, rfl, rfl, rfl⟩
  | store o rs1 rs2 imm =>
    simp only [Instr.encode, encodeS_eq, test_encodeR]
    cases o <;> exact ⟨_, rfl, rfl, rfl⟩

theorem setWidth_signExtend {n : ℕ} (x : BitVec n) :
    (x.signExtend 64).setWidth 32 = x.signExtend 32 := by
  apply BitVec.eq_of_getLsbD_eq
  intro k hk
  simp only [BitVec.getLsbD_setWidth, BitVec.getLsbD_signExtend]
  grind

theorem BITS_reg (w : Word) {hi lo : ℕ} (h : hi - lo + 1 = 5) :
    (BITS w hi lo).setWidth 5 = w.extractLsb' lo 5 := by
  rw [BITS_eq w h (by decide), BitVec.setWidth_setWidth_of_le _ (by decide), BitVec.setWidth_eq]

theorem immI_eq (w : Word) : immI w = (w.extractLsb' 20 12).signExtend 32 := by
  rw [immI, BITS_eq w (n := 12) (by decide) (by decide), SEXT_setWidth _ (by decide),
    setWidth_signExtend]

theorem immI_encodeI (imm : BitVec 12) (r1 : Reg) (f3 : BitVec 3) (r : Reg) (op : BitVec 7) :
    immI (encodeI imm r1 f3 r op) = imm.signExtend 32 := by
  rw [immI_eq, extract_immI]

/-- The shift bodies keep the low five bits of the immediate. -/
theorem immI_shamt (f7 : BitVec 7) (shamt r1 : Reg) (f3 : BitVec 3) (r : Reg) (op : BitVec 7) :
    (immI (encodeR f7 shamt r1 f3 r op) &&& 31).toNat = shamt.toNat := by
  have hw : immI (encodeR f7 shamt r1 f3 r op) &&& 31 = shamt.setWidth 32 := by
    rw [immI_eq]
    apply BitVec.eq_of_getLsbD_eq
    intro k hk
    simp only [encodeR, BitVec.getLsbD_and, BitVec.getLsbD_signExtend, BitVec.getLsbD_extractLsb',
      BitVec.getLsbD_append, BitVec.getLsbD_setWidth]
    interval_cases k <;> simp
  rw [hw, BitVec.toNat_setWidth, Nat.mod_eq_of_lt (by omega)]

theorem immS_encodeS (imm : BitVec 12) (r2 r1 : Reg) (f3 : BitVec 3) (op : BitVec 7) :
    immS (encodeS imm r2 r1 f3 op) = imm.signExtend 32 := by
  obtain ⟨h7, h5⟩ := extract_immS imm r2 r1 f3 op
  rw [immS, BITS_eq _ (n := 7) (by decide) (by decide), SEXT_setWidth _ (by decide),
    BITS_eq _ (n := 5) (by decide) (by decide), h7, h5]
  apply BitVec.eq_of_getLsbD_eq
  intro k hk
  simp only [BitVec.getLsbD_setWidth, BitVec.getLsbD_or, BitVec.getLsbD_shiftLeft,
    BitVec.getLsbD_signExtend, BitVec.getLsbD_extractLsb', BitVec.msb_eq_getLsbD_last]
  grind

theorem immU_encodeU (imm : BitVec 20) (r : Reg) (op : BitVec 7) :
    immU (encodeU imm r op) = imm ++ 0#12 := by
  rw [immU, BITS_eq _ (n := 20) (by decide) (by decide), SEXT_setWidth _ (by decide), extract_immU]
  apply BitVec.eq_of_getLsbD_eq
  intro k hk
  simp only [BitVec.getLsbD_setWidth, BitVec.getLsbD_shiftLeft, BitVec.getLsbD_signExtend,
    BitVec.getLsbD_append]
  grind

/-- The branch bodies shift the assembled immediate left by one. -/
theorem immB_encodeB (imm : BitVec 12) (r2 r1 : Reg) (f3 : BitVec 3) (op : BitVec 7) :
    immB (encodeB imm r2 r1 f3 op) <<< 1 = offset imm := by
  obtain ⟨h31, h25, h8, h1⟩ := extract_immB imm r2 r1 f3 op
  simp only [immB, BITS_eq _ (show 31 - 31 + 1 = 1 by decide) (by decide),
    BITS_eq _ (show 7 - 7 + 1 = 1 by decide) (by decide),
    BITS_eq _ (show 30 - 25 + 1 = 6 by decide) (by decide),
    BITS_eq _ (show 11 - 8 + 1 = 4 by decide) (by decide),
    SEXT_setWidth _ (show 1 ≤ 64 by decide), h31, h25, h8, h1, offset]
  apply BitVec.eq_of_getLsbD_eq
  intro k hk
  simp only [BitVec.getLsbD_shiftLeft, BitVec.getLsbD_or, BitVec.getLsbD_setWidth,
    BitVec.getLsbD_signExtend, BitVec.getLsbD_extractLsb', BitVec.msb_eq_getLsbD_last,
    BitVec.getLsbD_append]
  grind

theorem immJ_encodeJ (imm : BitVec 20) (r : Reg) (op : BitVec 7) :
    immJ (encodeJ imm r op) <<< 1 = offset imm := by
  have h20 : (encodeJ imm r op).extractLsb' 12 20 = shuffleJ imm := by
    rw [encodeJ_eq, extract_immU]
  have hfield (lo n : ℕ) (h : lo + n ≤ 20) :
      (encodeJ imm r op).extractLsb' (12 + lo) n = (shuffleJ imm).extractLsb' lo n := by
    rw [← h20]
    apply BitVec.eq_of_getLsbD_eq
    intro k hk
    simp only [BitVec.getLsbD_extractLsb', Nat.add_assoc, show lo + k < 20 by omega,
      decide_true, Bool.true_and]
  simp only [immJ, BITS_eq _ (show 31 - 31 + 1 = 1 by decide) (by decide),
    BITS_eq _ (show 19 - 12 + 1 = 8 by decide) (by decide),
    BITS_eq _ (show 20 - 20 + 1 = 1 by decide) (by decide),
    BITS_eq _ (show 30 - 21 + 1 = 10 by decide) (by decide),
    SEXT_setWidth _ (show 1 ≤ 64 by decide), hfield 19 1 (by decide), hfield 0 8 (by decide),
    hfield 8 1 (by decide), hfield 9 10 (by decide), shuffleJ, offset]
  apply BitVec.eq_of_getLsbD_eq
  intro k hk
  simp only [BitVec.getLsbD_shiftLeft, BitVec.getLsbD_or, BitVec.getLsbD_setWidth,
    BitVec.getLsbD_signExtend, BitVec.getLsbD_extractLsb', BitVec.msb_eq_getLsbD_last,
    BitVec.getLsbD_append]
  grind

end Ysyx.Nemu
