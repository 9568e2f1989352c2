import Ysyx.Lib.Align
import Ysyx.Npc.Phase

/-! The core connected to a memory. In every cycle the memory chooses how long a
request that appears in it will take, and what it drives on the data lines while
it does not answer; a request is answered once, after that many cycles. -/

namespace Ysyx.Npc

open Bytes Rv32

structure AccessReq where
  addr : Word
  wen : Bool
  wdata : Word
  wmask : BitVec 4
  deriving DecidableEq, Repr

/-- A request not answered yet, with the cycles it still takes. -/
abbrev Pending (ρ : Type) := Option (ℕ × ρ)

def Pending.answer {ρ : Type} : Pending ρ → Option ρ
  | some (0, r) => some r
  | _ => none

def Pending.tick {ρ : Type} : Pending ρ → Pending ρ
  | some (k + 1, r) => some (k, r)
  | _ => none

/-- The choices of the memory in one cycle. -/
structure Choice where
  fetchLatency : ℕ
  accessLatency : ℕ
  fetchIdle : Word
  accessIdle : Word

structure Sys where
  core : Core
  mem : Word → Byte
  fetch : Pending Word
  access : Pending AccessReq

def alignedWord (mem : Word → Byte) (a : Word) : Word := loadLE mem (a &&& ~~~3) 4

/-- The bytes of `d` selected by `mask`, stored into the aligned word that contains `a`. -/
def storeMasked (mem : Word → Byte) (a : Word) (mask : BitVec 4) (d : Word) : Word → Byte :=
  fun b =>
    let lane := (b - (a &&& ~~~3)).toNat
    if lane < 4 ∧ mask.getLsbD lane = true then byteOf d lane else mem b

/-- The memory after it has answered a request. -/
def AccessReq.apply (req : AccessReq) (mem : Word → Byte) : Word → Byte :=
  if req.wen then storeMasked mem req.addr req.wmask req.wdata else mem

namespace Sys

variable (s : Sys) (ch : Choice)

/-- The fetch outstanding in this cycle: the one that is shown, or an earlier one. -/
def fetchNow : Pending Word :=
  if s.core.ifu.reqValid then some (ch.fetchLatency, s.core.ifu.raddr) else s.fetch

def accessNow : Pending AccessReq :=
  if s.core.lsu.reqValid then
    some (ch.accessLatency, ⟨s.core.lsu.addr, s.core.lsu.wen, s.core.lsu.wdata, s.core.lsu.wmask⟩)
  else s.access

def inputs : Inputs where
  reset := false
  ifuRespValid := (s.fetchNow ch).answer.isSome
  ifuRdata :=
    match (s.fetchNow ch).answer with
    | some a => alignedWord s.mem a
    | none => ch.fetchIdle
  lsuRdata :=
    match (s.accessNow ch).answer with
    | some r => alignedWord s.mem r.addr
    | none => ch.accessIdle
  lsuRespValid := (s.accessNow ch).answer.isSome

/-- A store takes effect with its answer. -/
def memNext : Word → Byte :=
  match (s.accessNow ch).answer with
  | some r => r.apply s.mem
  | none => s.mem

def next : Sys where
  core := s.core.next (s.inputs ch)
  mem := s.memNext ch
  fetch := (s.fetchNow ch).tick
  access := (s.accessNow ch).tick

end Sys

/-- The state after a reset cycle: registers of any content, one edge with `reset`
high, and no request outstanding. -/
structure PostReset (s : Sys) : Prop where
  core : ∃ (c : Core) (i : Inputs), i.reset = true ∧ s.core = c.next i
  fetch : s.fetch = none
  access : s.access = none

def lane (a : Word) : ℕ := (a.extractLsb' 0 2).toNat

theorem lane_lt (a : Word) : lane a < 4 := (a.extractLsb' 0 2).isLt

theorem align_sub (a : Word) : a - (a &&& ~~~3) = BitVec.ofNat 32 (lane a) := by
  have hbase : (a &&& ~~~3).toNat = a.toNat / 4 * 4 := toNat_and_not_mask (k := 2) a
  have hlane : lane a = a.toNat % 4 := by
    rw [lane, BitVec.extractLsb'_toNat, Nat.shiftRight_zero]
  have hlt := a.isLt
  apply BitVec.eq_of_toNat_eq
  rw [BitVec.toNat_sub, BitVec.toNat_ofNat, hbase, hlane]
  omega

theorem align_eq {a : Word} (h : lane a = 0) : a &&& ~~~3 = a := by
  have hs := align_sub a
  rw [h] at hs
  exact (sub_eq_zero.mp hs).symm

theorem align_add (a : Word) : (a &&& ~~~3) + BitVec.ofNat 32 (lane a) = a := by
  rw [← align_sub, add_sub_cancel]

theorem alignedWord_eq (mem : Word → Byte) {a : Word} (h : lane a = 0) :
    alignedWord mem a = loadLE mem a 4 := by
  rw [alignedWord, align_eq h]

theorem deviation_byte (mem : Word → Byte) (a : Word) :
    ((alignedWord mem a >>> (8 * lane a)).extractLsb' 0 8).setWidth 32 = loadLE mem a 1 := by
  have hbyte : (alignedWord mem a >>> (8 * lane a)).extractLsb' 0 8 =
      byteOf (alignedWord mem a) (lane a) := by
    apply BitVec.eq_of_getLsbD_eq
    intro k hk
    simp only [byteOf, BitVec.getLsbD_extractLsb', BitVec.getLsbD_ushiftRight, Nat.zero_add]
  rw [hbyte, alignedWord, loadLE, byteOf_leWord _ _ _ (by decide), if_pos (lane_lt a), align_add]
  simp [loadLE, leWord]

theorem getLsbD_one_shiftLeft (n k : ℕ) (hk : k < 4) :
    ((1 : BitVec 4) <<< n).getLsbD k = decide (k = n) := by
  rw [BitVec.getLsbD_shiftLeft, decide_eq_true hk]
  rcases lt_trichotomy k n with h | h | h
  · simp [h, h.ne]
  · simp [h]
  · have : k - n ≠ 0 := by omega
    simp [BitVec.getLsbD_one, this, h.ne', h.not_gt]

theorem byteOf_shiftLeft (d : Word) {n : ℕ} (hn : n < 4) :
    byteOf (d <<< (8 * n)) n = byteOf d 0 := by
  apply BitVec.eq_of_getLsbD_eq
  intro k hk
  simp only [byteOf, BitVec.getLsbD_extractLsb', BitVec.getLsbD_shiftLeft, hk,
    show 8 * n + k < 32 by omega, show ¬ 8 * n + k < 8 * n by omega, Nat.add_sub_cancel_left,
    decide_true, decide_false, Bool.true_and, Bool.not_false, Nat.mul_zero, Nat.zero_add]

theorem sub_align_eq {a b : Word} : (b - (a &&& ~~~3)).toNat = lane a ↔ b = a := by
  have hlane := lane_lt a
  constructor
  · intro h
    have hb : b - (a &&& ~~~3) = a - (a &&& ~~~3) := by
      rw [align_sub]
      apply BitVec.eq_of_toNat_eq
      rw [h, BitVec.toNat_ofNat, Nat.mod_eq_of_lt (by omega)]
    exact sub_left_injective hb
  · rintro rfl
    rw [align_sub, BitVec.toNat_ofNat, Nat.mod_eq_of_lt (by omega)]

theorem storeMasked_byte (mem : Word → Byte) (a d : Word) :
    storeMasked mem a ((1 : BitVec 4) <<< lane a) (d <<< (8 * lane a)) = storeLE mem a 1 d := by
  funext b
  have hlane := lane_lt a
  simp only [storeMasked]
  by_cases hb : b = a
  · have hl := sub_align_eq.mpr hb
    rw [hl, getLsbD_one_shiftLeft _ _ hlane, if_pos ⟨hlane, by simp⟩, byteOf_shiftLeft _ hlane, hb,
      storeLE_in _ _ (by simp)]
    simp
  · have hout : ¬ (b - a).toNat < 1 := by
      intro hlt
      have h0 : b - a = 0 := BitVec.eq_of_toNat_eq (by simpa using hlt)
      exact hb (sub_eq_zero.mp h0)
    rw [storeLE_out _ _ hout, if_neg]
    rintro ⟨hlt, hbit⟩
    rw [getLsbD_one_shiftLeft _ _ hlt, decide_eq_true_eq] at hbit
    exact hb (sub_align_eq.mp hbit)

theorem storeMasked_word (mem : Word → Byte) {a : Word} (d : Word) (h : lane a = 0) :
    storeMasked mem a ((0b1111 : BitVec 4) <<< lane a) (d <<< (8 * lane a)) = storeLE mem a 4 d := by
  funext b
  rw [h]
  simp only [storeMasked, storeLE, align_eq h, Nat.mul_zero, BitVec.shiftLeft_zero]
  have hmask : ∀ k < 4, (0b1111 : BitVec 4).getLsbD k = true := by decide
  by_cases hlt : (b - a).toNat < 4
  · rw [if_pos ⟨hlt, hmask _ hlt⟩, if_pos hlt]
  · rw [if_neg fun hb => hlt hb.1, if_neg hlt]

end Ysyx.Npc
