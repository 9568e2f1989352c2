import Ysyx.Lib.Align
import Ysyx.Lib.Bytes
import Ysyx.Lib.Outcome

/-! Physical memory of NEMU (`paddr.h`, `paddr.c`, `host.h`, `vaddr.c`), built
without `CONFIG_DEVICE`. The two host arrays are indexed as in C, and an access
that leaves its array is an `undefined` outcome rather than a value. -/

namespace Ysyx.Nemu

open Bytes

/-- The ways a call ends other than by returning: a failed `assert`, a `panic`,
behaviour C leaves undefined, and the host's integer-division trap. -/
inductive Fault where
  | assertion | panic | undefined | trap
  deriving DecidableEq, Repr

/-- The Kconfig options that the modelled code reads. -/
structure Config where
  MBASE : Word
  MSIZE : ℕ
  RVE : Bool
  DIFFTEST : Bool
  WATCHPOINT : Bool
  /-- The array `flash` has `MSIZE` bytes. -/
  flash_object : MSIZE < 2 ^ 63
  deriving DecidableEq, Repr

def SRAM_BASE : ℕ := 0x0f000000
def SRAM_SIZE : ℕ := 0x1000000
def FLASH_BASE : ℕ := 0x30000000
def FLASH_SIZE : ℕ := 0x10000000

/-- The arrays `flash` and `sram` of `paddr.c`. -/
inductive HostArray where
  | flash | sram
  deriving DecidableEq, Repr

/-- A `uint8_t *` into one of the two arrays. -/
structure HostPtr where
  arr : HostArray
  off : ℕ
  deriving DecidableEq, Repr

abbrev Mem := HostArray → ℕ → Byte

def Config.arrayLen (cfg : Config) : HostArray → ℕ
  | .flash => cfg.MSIZE
  | .sram => 0x1000000

def guestToHost (paddr : Word) : Except Fault HostPtr :=
  if SRAM_BASE ≤ paddr.toNat ∧ paddr.toNat ≤ 0x0fffffff then
    .ok ⟨.sram, paddr.toNat - SRAM_BASE⟩
  else if FLASH_BASE ≤ paddr.toNat ∧ paddr.toNat ≤ 0x3fffffff then
    .ok ⟨.flash, paddr.toNat - FLASH_BASE⟩
  else .error .panic

/-- With `PMEM64` a `paddr_t` has 64 bits. -/
def PMEM64 (cfg : Config) : Bool := decide (cfg.MBASE.toNat + cfg.MSIZE > 0x100000000)

/-- `addr - CONFIG_MBASE` of a 32-bit address, in `paddr_t`, where it wraps below `MBASE`. -/
def pmemOffset (cfg : Config) (addr : Word) : ℕ :=
  if PMEM64 cfg then (addr.setWidth 64 - cfg.MBASE.setWidth 64).toNat else (addr - cfg.MBASE).toNat

def inPmem (cfg : Config) (addr : Word) : Except Fault Bool :=
  if FLASH_BASE ≤ addr.toNat ∧ addr.toNat < FLASH_BASE + FLASH_SIZE then
    .ok (decide (pmemOffset cfg addr < cfg.MSIZE))
  else if SRAM_BASE ≤ addr.toNat ∧ addr.toNat < SRAM_BASE + SRAM_SIZE then
    .ok (decide (addr.toNat - SRAM_BASE < SRAM_SIZE))
  else .error .assertion

def hostRead (cfg : Config) (m : Mem) (p : HostPtr) (len : ℕ) : Except Fault Word :=
  if len = 1 ∨ len = 2 ∨ len = 4 then
    if p.off + len ≤ cfg.arrayLen p.arr then .ok (leWord (fun k => m p.arr (p.off + k)) len)
    else .error .undefined
  else .error .assertion

def hostWrite (cfg : Config) (m : Mem) (p : HostPtr) (len : ℕ) (data : Word) : Except Fault Mem :=
  if len = 1 ∨ len = 2 ∨ len = 4 then
    if p.off + len ≤ cfg.arrayLen p.arr then
      .ok (Function.update m p.arr (writeWindow (m p.arr) p.off len data))
    else .error .undefined
  else .error .assertion

def pmemRead (cfg : Config) (m : Mem) (addr : Word) (len : ℕ) : Except Fault Word := do
  hostRead cfg m (← guestToHost addr) len

def pmemWrite (cfg : Config) (m : Mem) (addr : Word) (len : ℕ) (data : Word) : Except Fault Mem := do
  hostWrite cfg m (← guestToHost addr) len data

/-- Outside physical memory `out_of_bound` panics. -/
def paddrRead (cfg : Config) (m : Mem) (addr : Word) (len : ℕ) : Except Fault Word := do
  if ← inPmem cfg addr then pmemRead cfg m addr len else .error .panic

def paddrWrite (cfg : Config) (m : Mem) (addr : Word) (len : ℕ) (data : Word) : Except Fault Mem := do
  if ← inPmem cfg addr then pmemWrite cfg m addr len data else .error .panic

def vaddrIfetch (cfg : Config) (m : Mem) (addr : Word) (len : ℕ) : Except Fault Word :=
  paddrRead cfg m addr len

def vaddrRead (cfg : Config) (m : Mem) (addr : Word) (len : ℕ) : Except Fault Word :=
  paddrRead cfg m addr len

def vaddrWrite (cfg : Config) (m : Mem) (addr : Word) (len : ℕ) (data : Word) : Except Fault Mem :=
  paddrWrite cfg m addr len data

/-- The `n` bytes at `a` lie in the part of the flash window that `in_pmem`
accepts and the array backs. -/
structure InFlash (cfg : Config) (a : Word) (n : ℕ) : Prop where
  base : FLASH_BASE ≤ a.toNat
  window : a.toNat + n ≤ FLASH_BASE + FLASH_SIZE
  array : a.toNat + n ≤ FLASH_BASE + cfg.MSIZE
  pmem : pmemOffset cfg a + n ≤ cfg.MSIZE

structure InSram (a : Word) (n : ℕ) : Prop where
  base : SRAM_BASE ≤ a.toNat
  window : a.toNat + n ≤ SRAM_BASE + SRAM_SIZE

/-- The access lies wholly inside flash or inside SRAM. -/
def InMem (cfg : Config) (a : Word) (n : ℕ) : Prop := InFlash cfg a n ∨ InSram a n

/-- The byte the guest sees at an address; zero where nothing is mapped. -/
def Mem.view (m : Mem) (a : Word) : Byte :=
  match guestToHost a with
  | .ok p => m p.arr p.off
  | .error _ => 0

def HostArray.base : HostArray → ℕ
  | .flash => FLASH_BASE
  | .sram => SRAM_BASE

def HostArray.window : HostArray → ℕ
  | .flash => FLASH_SIZE
  | .sram => SRAM_SIZE

theorem guestToHost_iff {a : Word} {p : HostPtr} :
    guestToHost a = .ok p ↔ a.toNat = p.arr.base + p.off ∧ p.off < p.arr.window := by
  obtain ⟨arr, off⟩ := p
  unfold guestToHost
  cases arr <;> split_ifs with hs hf <;>
    simp only [Except.ok.injEq, HostPtr.mk.injEq, reduceCtorEq, HostArray.base, HostArray.window,
      SRAM_BASE, SRAM_SIZE, FLASH_BASE, FLASH_SIZE, true_and, false_and, false_iff] at * <;> omega

theorem sub_toNat_lt_iff {a b : Word} {n : ℕ} (h : a.toNat + n ≤ 2 ^ 32) :
    (b - a).toNat < n ↔ a.toNat ≤ b.toNat ∧ b.toNat < a.toNat + n := by
  have ha := a.isLt
  have hb := b.isLt
  rw [BitVec.toNat_sub]
  omega

section Access

variable {cfg : Config} {a : Word} {n : ℕ}

theorem pmemOffset_of_le (h : cfg.MBASE.toNat ≤ a.toNat) :
    pmemOffset cfg a = a.toNat - cfg.MBASE.toNat := by
  have ha := a.isLt
  unfold pmemOffset
  split_ifs
  · rw [BitVec.toNat_sub, BitVec.toNat_setWidth, BitVec.toNat_setWidth]
    omega
  · rw [BitVec.toNat_sub]
    omega

theorem pmemOffset_lt_iff : pmemOffset cfg a < cfg.MSIZE ↔
    cfg.MBASE.toNat ≤ a.toNat ∧ a.toNat < cfg.MBASE.toNat + cfg.MSIZE := by
  have hobj := cfg.flash_object
  have hM := cfg.MBASE.isLt
  by_cases h : cfg.MBASE.toNat ≤ a.toNat
  · rw [pmemOffset_of_le h]
    omega
  · refine iff_of_false ?_ fun hin => h hin.1
    unfold pmemOffset
    split_ifs with hw
    · rw [BitVec.toNat_sub, BitVec.toNat_setWidth, BitVec.toNat_setWidth]
      omega
    · rw [PMEM64, decide_eq_true_eq] at hw
      rw [BitVec.toNat_sub]
      omega

theorem pmemOffset_add_le {k : ℕ} (h : a.toNat + k < 2 ^ 32) :
    pmemOffset cfg (a + BitVec.ofNat 32 k) ≤ pmemOffset cfg a + k := by
  have hM := cfg.MBASE.isLt
  unfold pmemOffset
  split_ifs
  · simp only [BitVec.toNat_sub, BitVec.toNat_setWidth, toNat_add_ofNat h]
    omega
  · simp only [BitVec.toNat_sub, toNat_add_ofNat h]
    omega

theorem InMem.noWrap (h : InMem cfg a n) : a.toNat + n < 2 ^ 32 := by
  rcases h with h | h
  · have := h.window
    simp only [FLASH_BASE, FLASH_SIZE] at this
    omega
  · have := h.window
    simp only [SRAM_BASE, SRAM_SIZE] at this
    omega

/-- A part of an access inside memory is inside memory. -/
theorem InMem.sub (h : InMem cfg a n) {k l : ℕ} (hk : k + l ≤ n) :
    InMem cfg (a + BitVec.ofNat 32 k) l := by
  have hlt : a.toNat + k < 2 ^ 32 := by
    have := h.noWrap
    omega
  have hs := toNat_add_ofNat hlt
  rcases h with h | h
  · refine Or.inl ⟨by have := h.base; omega, by have := h.window; omega,
      by have := h.array; omega, ?_⟩
    have hp := h.pmem
    have hoff : pmemOffset cfg (a + BitVec.ofNat 32 k) ≤ pmemOffset cfg a + k := pmemOffset_add_le hlt
    omega
  · exact Or.inr ⟨by have := h.base; omega, by have := h.window; omega⟩

theorem inPmem_of_inMem (h : InMem cfg a n) (hn : 0 < n) : inPmem cfg a = .ok true := by
  rcases h with h | h
  · have h1 := h.base
    have h2 := h.window
    have h3 := h.pmem
    rw [inPmem, if_pos ⟨h1, by omega⟩, decide_eq_true (by omega)]
  · have h1 := h.base
    have h2 := h.window
    have hlo : ¬ (FLASH_BASE ≤ a.toNat ∧ a.toNat < FLASH_BASE + FLASH_SIZE) := by
      simp only [SRAM_BASE, SRAM_SIZE, FLASH_BASE, FLASH_SIZE] at *
      omega
    rw [inPmem, if_neg hlo, if_pos ⟨h1, by omega⟩, decide_eq_true (by omega)]

theorem guestToHost_of_inMem (h : InMem cfg a n) (hn : 0 < n) :
    ∃ p, guestToHost a = .ok p ∧ p.off + n ≤ cfg.arrayLen p.arr ∧ p.off + n ≤ p.arr.window := by
  rcases h with h | h
  · have h1 := h.base
    have h2 := h.window
    have h3 := h.array
    refine ⟨⟨.flash, a.toNat - FLASH_BASE⟩, guestToHost_iff.mpr ⟨?_, ?_⟩, ?_, ?_⟩ <;>
      simp only [HostArray.base, HostArray.window, Config.arrayLen] <;> omega
  · have h1 := h.base
    have h2 := h.window
    refine ⟨⟨.sram, a.toNat - SRAM_BASE⟩, guestToHost_iff.mpr ⟨?_, ?_⟩, ?_, ?_⟩ <;>
      simp only [HostArray.base, HostArray.window, Config.arrayLen, SRAM_BASE, SRAM_SIZE] at * <;>
      omega

theorem guestToHost_add {p : HostPtr} {k : ℕ} (hp : guestToHost a = .ok p)
    (hw : p.off + k < p.arr.window) :
    guestToHost (a + BitVec.ofNat 32 k) = .ok ⟨p.arr, p.off + k⟩ := by
  rw [guestToHost_iff] at hp ⊢
  have hlt : a.toNat + k < 2 ^ 32 := by
    obtain ⟨arr, off⟩ := p
    cases arr <;> simp only [HostArray.base, HostArray.window, SRAM_BASE, SRAM_SIZE, FLASH_BASE,
      FLASH_SIZE] at hp hw <;> omega
  exact ⟨by rw [toNat_add_ofNat hlt]; dsimp only; omega, hw⟩

theorem view_eq (m : Mem) {p : HostPtr} (hp : guestToHost a = .ok p) : m.view a = m p.arr p.off := by
  rw [Mem.view, hp]

theorem paddrRead_ok (m : Mem) (h : InMem cfg a n) (hn : n = 1 ∨ n = 2 ∨ n = 4) :
    paddrRead cfg m a n = .ok (loadLE m.view a n) := by
  have hpos : 0 < n := by omega
  obtain ⟨p, hp, hlen, hwin⟩ := guestToHost_of_inMem h hpos
  have hread : hostRead cfg m p n = .ok (leWord (fun k => m p.arr (p.off + k)) n) := by
    rw [hostRead, if_pos hn, if_pos hlen]
  have hbytes : leWord (fun k => m p.arr (p.off + k)) n = loadLE m.view a n :=
    leWord_congr fun k hk => (view_eq m (guestToHost_add hp (by omega))).symm
  simp only [paddrRead, inPmem_of_inMem h hpos, pmemRead, hp, bind, Except.bind, if_true, hread,
    hbytes]

theorem paddrWrite_eq (m : Mem) (d : Word) (h : InMem cfg a n) (hn : n = 1 ∨ n = 2 ∨ n = 4) :
    ∃ p, guestToHost a = .ok p ∧ p.off + n ≤ p.arr.window ∧
      paddrWrite cfg m a n d =
        .ok (Function.update m p.arr (writeWindow (m p.arr) p.off n d)) := by
  have hpos : 0 < n := by omega
  obtain ⟨p, hp, hlen, hwin⟩ := guestToHost_of_inMem h hpos
  have hwrite : hostWrite cfg m p n d =
      .ok (Function.update m p.arr (writeWindow (m p.arr) p.off n d)) := by
    rw [hostWrite, if_pos hn, if_pos hlen]
  refine ⟨p, hp, hwin, ?_⟩
  simp only [paddrWrite, inPmem_of_inMem h hpos, pmemWrite, hp, bind, Except.bind, if_true, hwrite]

/-- A write inside memory changes the bytes of its window, as the guest sees
them, and no other. -/
theorem paddrWrite_ok (m : Mem) (d : Word) (h : InMem cfg a n) (hn : n = 1 ∨ n = 2 ∨ n = 4) :
    ∃ m', paddrWrite cfg m a n d = .ok m' ∧ m'.view = storeLE m.view a n d := by
  obtain ⟨p, hp, hwin, hwrite⟩ := paddrWrite_eq m d h hn
  refine ⟨Function.update m p.arr (writeWindow (m p.arr) p.off n d), hwrite, ?_⟩
  funext b
  by_cases hb : (b - a).toNat < n
  · -- inside the window `b` is `a` plus the distance, so its host cell is written
    obtain ⟨k, hk⟩ : ∃ k, (b - a).toNat = k := ⟨_, rfl⟩
    have hba : b = a + BitVec.ofNat 32 k := by
      rw [← hk, BitVec.ofNat_toNat, BitVec.setWidth_eq, add_sub_cancel]
    rw [storeLE_in _ _ hb, hk, hba, view_eq _ (guestToHost_add hp (by omega)),
      Function.update_self, writeWindow_in _ _ (by dsimp only; omega), Nat.add_sub_cancel_left]
  · rw [storeLE_out _ _ hb]
    cases hq : guestToHost b with
    | error f => simp only [Mem.view, hq]
    | ok q =>
      rw [view_eq _ hq, view_eq _ hq]
      by_cases harr : q.arr = p.arr
      · rw [harr, Function.update_self, writeWindow_out]
        -- the offset is in the window only when the address is
        intro ⟨hlo, hhi⟩
        rw [guestToHost_iff] at hp hq
        rw [harr] at hq
        exact hb ((sub_toNat_lt_iff (le_of_lt h.noWrap)).mpr (by omega))
      · rw [Function.update_of_ne harr]

end Access

end Ysyx.Nemu
