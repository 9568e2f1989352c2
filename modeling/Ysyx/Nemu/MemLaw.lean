import Ysyx.Nemu.InstCorrect

/-! The memory law of the interpreter: what a read sees after a write, for accesses of every width
that overlap in any way. -/

namespace Ysyx.Nemu

open Bytes

/-- The bytes of the array `flash` that its window shows. -/
def WithinFlash (cfg : Config) (a : Word) (n : ℕ) : Prop :=
  FLASH_BASE ≤ a.toNat ∧ a.toNat + n ≤ FLASH_BASE + min cfg.MSIZE FLASH_SIZE

def WithinSram (a : Word) (n : ℕ) : Prop :=
  SRAM_BASE ≤ a.toNat ∧ a.toNat + n ≤ SRAM_BASE + SRAM_SIZE

section Law

variable {cfg : Config} {a b : Word} {n k : ℕ}

theorem WithinFlash.inFlash (hbase : cfg.MBASE = 0x30000000) (h : WithinFlash cfg a n) :
    InFlash cfg a n := by
  obtain ⟨hlo, hhi⟩ := h
  have hb : cfg.MBASE.toNat = FLASH_BASE := by
    rw [hbase]
    rfl
  have hsub : pmemOffset cfg a = a.toNat - FLASH_BASE := by
    rw [pmemOffset_of_le (by omega), hb]
  exact ⟨hlo, by omega, by omega, by omega⟩

theorem inMem_of_within (hbase : cfg.MBASE = 0x30000000) (h : WithinFlash cfg a n ∨ WithinSram a n) :
    InMem cfg a n := by
  rcases h with h | h
  · exact .inl (h.inFlash hbase)
  · exact .inr ⟨h.1, h.2⟩

/-- The byte at `b + i` after a write of `d` to the `n` bytes at `a`. -/
def byteAfter (mem : Mem) (a : Word) (n : ℕ) (d : Word) (b : Word) (i : ℕ) : Byte :=
  if a.toNat ≤ b.toNat + i ∧ b.toNat + i < a.toNat + n then byteOf d (b.toNat + i - a.toNat)
  else mem.view (b + BitVec.ofNat 32 i)

theorem vaddrWrite_other {mem mem' : Mem} {d : Word} (h : InMem cfg a n)
    (hn : n = 1 ∨ n = 2 ∨ n = 4) (hwrite : vaddrWrite cfg mem a n d = .ok mem') :
    (WithinFlash cfg a n → mem' .sram = mem .sram) ∧ (WithinSram a n → mem' .flash = mem .flash) := by
  obtain ⟨p, hp, -, heq⟩ := paddrWrite_eq mem d h hn
  cases heq.symm.trans hwrite
  obtain ⟨hoff, hwin⟩ := guestToHost_iff.1 hp
  constructor
  · intro hflash
    refine Function.update_of_ne ?_ _ _
    intro harr
    rw [← harr] at hoff hwin
    have := hflash.1
    simp only [HostArray.base, HostArray.window, SRAM_BASE, SRAM_SIZE, FLASH_BASE] at hoff hwin this
    omega
  · intro hsram
    refine Function.update_of_ne ?_ _ _
    intro harr
    rw [← harr] at hoff hwin
    have := hsram.2
    simp only [HostArray.base, HostArray.window, SRAM_BASE, SRAM_SIZE, FLASH_BASE] at hoff hwin this
    omega

/-- After `vaddr_write`, `vaddr_read` and `vaddr_ifetch` see the new bytes where the accesses
overlap and the old ones elsewhere, and the other region is as it was. -/
theorem memory_law (hbase : cfg.MBASE = 0x30000000) (mem : Mem) (d : Word)
    (hn : n = 1 ∨ n = 2 ∨ n = 4) (hk : k = 1 ∨ k = 2 ∨ k = 4)
    (ha : WithinFlash cfg a n ∨ WithinSram a n) (hb : WithinFlash cfg b k ∨ WithinSram b k) :
    ∃ mem', vaddrWrite cfg mem a n d = .ok mem' ∧
      vaddrRead cfg mem' b k = .ok (leWord (byteAfter mem a n d b) k) ∧
      vaddrIfetch cfg mem' b k = .ok (leWord (byteAfter mem a n d b) k) ∧
      (WithinFlash cfg a n → mem' .sram = mem .sram) ∧
      (WithinSram a n → mem' .flash = mem .flash) := by
  have hina := inMem_of_within hbase ha
  have hinb := inMem_of_within hbase hb
  obtain ⟨mem', hwrite, hview⟩ := paddrWrite_ok mem d hina hn
  have hbytes : loadLE mem'.view b k = leWord (byteAfter mem a n d b) k := by
    refine leWord_congr fun i hi => ?_
    have hwa := hina.noWrap
    have hwb := hinb.noWrap
    have hsum : (b + BitVec.ofNat 32 i).toNat = b.toNat + i := toNat_add_ofNat (by omega)
    have hwin := sub_toNat_lt_iff (b := b + BitVec.ofNat 32 i) (le_of_lt hwa)
    rw [hsum] at hwin
    rw [hview, byteAfter]
    split_ifs with h
    · have hle : a ≤ b + BitVec.ofNat 32 i := by
        rw [BitVec.le_def, hsum]
        exact h.1
      rw [storeLE_in _ _ (hwin.2 h), BitVec.toNat_sub_of_le hle, hsum]
    · exact storeLE_out _ _ fun hlt => h (hwin.1 hlt)
  have hread := paddrRead_ok mem' hinb hk
  rw [hbytes] at hread
  exact ⟨mem', hwrite, hread, hread, vaddrWrite_other hina hn hwrite⟩

/-- A word written to flash, and the halfword one byte further. -/
theorem memory_law_halfword : ∃ mem', vaddrWrite defaultConfig (fun _ _ => 0) 0x30000000 4 0x44332211 =
      .ok mem' ∧ vaddrRead defaultConfig mem' 0x30000001 2 = .ok 0x3322 := by
  obtain ⟨mem', hwrite, hread, -⟩ := @memory_law defaultConfig 0x30000000 0x30000001 4 2 rfl
    (fun _ _ => 0) 0x44332211 (by decide) (by decide) (.inl (by unfold WithinFlash; decide))
    (.inl (by unfold WithinFlash; decide))
  exact ⟨mem', hwrite, hread.trans (by decide)⟩

end Law

end Ysyx.Nemu
