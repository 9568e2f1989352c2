import Ysyx.Lib.Rv64
import Ysyx.Nemu.Inst64

/-! Accesses of the riscv64 interpreter inside memory, as the guest sees its 64-bit address space. -/

namespace Ysyx.Nemu.Riscv64

open Bytes

def view (m : Mem) (a : DWord) : Byte := if a.toNat < 2 ^ 32 then m.view (a.setWidth 32) else 0

/-- The access lies wholly inside flash or inside SRAM. -/
def InMem64 (cfg : Config) (a : DWord) (n : ℕ) : Prop :=
  (FLASH_BASE ≤ a.toNat ∧ a.toNat + n ≤ FLASH_BASE + FLASH_SIZE ∧
    a.toNat + n ≤ FLASH_BASE + cfg.MSIZE ∧
    (paddr cfg (a - cfg.MBASE.setWidth 64)).toNat + n ≤ cfg.MSIZE) ∨
  (SRAM_BASE ≤ a.toNat ∧ a.toNat + n ≤ SRAM_BASE + SRAM_SIZE)

section Memory

variable {cfg : Config} {a : DWord} {n : ℕ}

theorem InMem64.noWrap (h : InMem64 cfg a n) : a.toNat + n < 2 ^ 32 := by
  simp only [InMem64, FLASH_BASE, FLASH_SIZE, SRAM_BASE, SRAM_SIZE] at h
  omega

theorem toNat_setWidth_low (h : a.toNat < 2 ^ 32) : (a.setWidth 32).toNat = a.toNat := by
  rw [BitVec.toNat_setWidth, Nat.mod_eq_of_lt h]

theorem paddr_of_lt (h : a.toNat < 2 ^ 32) : paddr cfg a = a := by
  unfold paddr
  split_ifs
  · rfl
  · apply BitVec.eq_of_toNat_eq
    rw [BitVec.toNat_setWidth_of_le (by decide : 32 ≤ 64), toNat_setWidth_low h]

theorem pmemOffset_setWidth (h : a.toNat < 2 ^ 32) :
    pmemOffset cfg (a.setWidth 32) = (paddr cfg (a - cfg.MBASE.setWidth 64)).toNat := by
  have hM := cfg.MBASE.isLt
  have ha := toNat_setWidth_low h
  have hw (x : Word) : (x.setWidth 64).toNat = x.toNat :=
    BitVec.toNat_setWidth_of_le (by decide : 32 ≤ 64)
  unfold pmemOffset paddr
  split_ifs
  · rw [BitVec.toNat_sub, BitVec.toNat_sub, hw (a.setWidth 32), ha]
  · rw [hw, BitVec.toNat_setWidth, BitVec.toNat_sub, BitVec.toNat_sub, hw, ha]
    omega

/-- The low words of the addresses are inside memory as the 32-bit interpreter has it. -/
theorem InMem64.inMem (h : InMem64 cfg a n) : InMem cfg (a.setWidth 32) n := by
  have hlt := h.noWrap
  have ha := toNat_setWidth_low (a := a) (by omega)
  rcases h with ⟨hbase, hwindow, harray, hpmem⟩ | ⟨hbase, hwindow⟩
  · refine .inl ⟨by omega, by omega, by omega, ?_⟩
    have hoff := @pmemOffset_setWidth cfg a (by omega)
    omega
  · exact .inr ⟨by omega, by omega⟩

theorem inPmem_ok (h : InMem64 cfg a n) (hn : 0 < n) : inPmem cfg (paddr cfg a) = .ok true := by
  have hlt := h.noWrap
  rw [paddr_of_lt (by omega), inPmem]
  rcases h with ⟨hbase, hwindow, -, hpmem⟩ | ⟨hbase, hwindow⟩
  · rw [if_pos ⟨hbase, by omega⟩, decide_eq_true (by omega)]
  · have hlo : ¬ (FLASH_BASE ≤ a.toNat ∧ a.toNat < FLASH_BASE + FLASH_SIZE) := by
      simp only [SRAM_BASE, SRAM_SIZE, FLASH_BASE, FLASH_SIZE] at *
      omega
    rw [if_neg hlo, if_pos ⟨hbase, by omega⟩, decide_eq_true (by omega)]

theorem pmemRead_ok (m : Mem) (h : InMem64 cfg a n) (hn : n = 1 ∨ n = 2 ∨ n = 4) :
    pmemRead cfg m (a.setWidth 32) n = .ok (loadLE m.view (a.setWidth 32) n) := by
  have hread := paddrRead_ok m h.inMem hn
  rw [Nemu.paddrRead, inPmem_of_inMem h.inMem (by omega)] at hread
  exact hread

theorem setWidth_add_ofNat (k : ℕ) :
    (a + BitVec.ofNat 64 k).setWidth 32 = a.setWidth 32 + BitVec.ofNat 32 k := by
  rw [BitVec.setWidth_add _ _ (by decide : 32 ≤ 64)]
  congr 1
  apply BitVec.eq_of_toNat_eq
  rw [BitVec.toNat_setWidth, BitVec.toNat_ofNat, BitVec.toNat_ofNat]
  exact Nat.mod_mod_of_dvd k (by decide)

theorem readLE_view (m : Mem) (h : a.toNat + n ≤ 2 ^ 32) :
    Rv64.readLE (view m) a n = loadLE m.view (a.setWidth 32) n := by
  refine leWord_congr fun k hk => ?_
  have hk64 : (BitVec.ofNat 64 k).toNat = k := by
    rw [BitVec.toNat_ofNat, Nat.mod_eq_of_lt (by omega)]
  have hin : (a + BitVec.ofNat 64 k).toNat < 2 ^ 32 := by
    rw [BitVec.toNat_add, hk64, Nat.mod_eq_of_lt (by omega)]
    omega
  rw [view, if_pos hin, setWidth_add_ofNat]

theorem vaddrRead_ok (m : Mem) (h : InMem64 cfg a n) (hn : n = 1 ∨ n = 2 ∨ n = 4) :
    vaddrRead cfg m a n = .ok ((Rv64.readLE (view m) a n).setWidth 64) := by
  have hlt := h.noWrap
  rw [vaddrRead, paddrRead, inPmem_ok h (by omega), paddr_of_lt (by omega)]
  change (do return (← pmemRead cfg m (a.setWidth 32) n).setWidth 64) = _
  rw [pmemRead_ok m h hn, readLE_view m (by omega)]
  rfl

theorem pmemWrite_ok (m : Mem) (d : Word) (h : InMem64 cfg a n) (hn : n = 1 ∨ n = 2 ∨ n = 4) :
    ∃ m', pmemWrite cfg m (a.setWidth 32) n d = .ok m' ∧
      m'.view = storeLE m.view (a.setWidth 32) n d := by
  obtain ⟨m', hwrite, hview⟩ := paddrWrite_ok m d h.inMem hn
  rw [Nemu.paddrWrite, inPmem_of_inMem h.inMem (by omega)] at hwrite
  exact ⟨m', hwrite, hview⟩

theorem view_storeLE {m m' : Mem} {d : DWord} (h : a.toNat + n ≤ 2 ^ 32)
    (hview : m'.view = storeLE m.view (a.setWidth 32) n (d.setWidth 32)) :
    view m' = Rv64.writeLE (view m) a n d := by
  have ha : n = 0 ∨ (a.setWidth 32).toNat = a.toNat := by
    by_cases hn : n = 0
    · exact .inl hn
    · exact .inr (toNat_setWidth_low (by omega))
  funext b
  have hb := b.isLt
  have hsub : (b - a).toNat = (2 ^ 64 - a.toNat + b.toNat) % 2 ^ 64 := BitVec.toNat_sub b a
  rw [view, hview, Rv64.writeLE, storeLE, view]
  rcases ha with rfl | ha
  · rfl
  by_cases hlow : b.toNat < 2 ^ 32
  · have hbl := toNat_setWidth_low hlow
    have hsub' : (b.setWidth 32 - a.setWidth 32).toNat = (2 ^ 32 - a.toNat + b.toNat) % 2 ^ 32 := by
      rw [BitVec.toNat_sub, ha, hbl]
    rw [if_pos hlow, if_pos hlow]
    by_cases hin : (b - a).toNat < n
    · -- both distances are `b - a`
      have hdist : (b.setWidth 32 - a.setWidth 32).toNat = (b - a).toNat := by omega
      rw [if_pos hin, hdist, if_pos hin]
    · rw [if_neg hin, if_neg (by omega)]
  · rw [if_neg hlow, if_neg hlow, if_neg (by omega)]

theorem vaddrWrite_ok (m : Mem) (d : DWord) (h : InMem64 cfg a n) (hn : n = 1 ∨ n = 2 ∨ n = 4) :
    ∃ m', vaddrWrite cfg m a n d = .ok m' ∧ view m' = Rv64.writeLE (view m) a n d := by
  have hlt := h.noWrap
  obtain ⟨m', hwrite, hview⟩ := pmemWrite_ok m (d.setWidth 32) h hn
  refine ⟨m', ?_, view_storeLE (by omega) hview⟩
  rw [vaddrWrite, paddrWrite, inPmem_ok h (by omega), paddr_of_lt (by omega)]
  exact hwrite

end Memory

end Ysyx.Nemu.Riscv64
