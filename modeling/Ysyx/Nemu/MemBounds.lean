import Ysyx.Nemu.Memory

/-! Whether an access stays inside the host array it starts in. `in_pmem` looks at the
first byte only, `guest_to_host` at the 256 MB window and not at `CONFIG_MSIZE`, and
`difftest_memcpy` (`ref.c`) asks only `guest_to_host` for the bytes after the first. -/

namespace Ysyx.Nemu

open Bytes

/-- The loops of `difftest_memcpy` from `i` on, with `n` rounds left; the last result is the
host bytes that were touched. A byte past an array belongs to whatever lies behind it. -/
def memcpyLoop (toDut : Bool) (addr : Word) :
    ℕ → ℕ → Mem → (ℕ → Byte) → Except Fault (Mem × (ℕ → Byte) × List HostPtr)
  | 0, _, m, buf => .ok (m, buf, [])
  | n + 1, i, m, buf => do
    let p ← guestToHost (addr + BitVec.ofNat 32 i)
    let buf' := if toDut then Function.update buf i (m p.arr p.off) else buf
    let m' := if toDut then m
      else Function.update m p.arr (Function.update (m p.arr) p.off (buf i))
    let (m', buf', l) ← memcpyLoop toDut addr n (i + 1) m' buf'
    return (m', buf', p :: l)

/-- `toDut` stands for `direction == DIFFTEST_TO_DUT`. -/
def difftestMemcpy (m : Mem) (addr : Word) (buf : ℕ → Byte) (n : ℕ) (toDut : Bool) :
    Except Fault (Mem × (ℕ → Byte) × List HostPtr) :=
  if FLASH_BASE ≤ addr.toNat ∧ addr.toNat < FLASH_BASE + FLASH_SIZE then
    memcpyLoop toDut addr n 0 m buf
  else if SRAM_BASE ≤ addr.toNat ∧ addr.toNat < SRAM_BASE + SRAM_SIZE then
    memcpyLoop toDut addr n 0 m buf
  else .error .assertion

/-- If the `in_pmem` path is taken, all bytes of the access are in the array that
`guest_to_host` selects. -/
def AccessInside (cfg : Config) (a : Word) (len : ℕ) : Prop :=
  inPmem cfg a = .ok true → ∃ p, guestToHost a = .ok p ∧ ∀ k < len, p.off + k < cfg.arrayLen p.arr

/-- If `difftest_memcpy` returns, all bytes it has touched are in an array. -/
def MemcpyInside (cfg : Config) (a : Word) (n : ℕ) : Prop :=
  ∀ m buf toDut m' buf' l, difftestMemcpy m a buf n toDut = .ok (m', buf', l) →
    ∀ p ∈ l, p.off < cfg.arrayLen p.arr

/-- An access that starts in a region and ends past it. -/
def Straddles (base size : ℕ) (a : Word) (n : ℕ) : Prop :=
  base ≤ a.toNat ∧ a.toNat < base + size ∧ base + size < a.toNat + n

section Access

variable {cfg : Config} {a : Word} {len : ℕ}

theorem inPmem_iff (hbase : cfg.MBASE = 0x30000000) (hsize : cfg.MSIZE ≤ FLASH_SIZE) :
    inPmem cfg a = .ok true ↔
      (FLASH_BASE ≤ a.toNat ∧ a.toNat < FLASH_BASE + cfg.MSIZE) ∨
        (SRAM_BASE ≤ a.toNat ∧ a.toNat < SRAM_BASE + SRAM_SIZE) := by
  have hb : cfg.MBASE.toNat = FLASH_BASE := by rw [hbase]; rfl
  have hsub (h : FLASH_BASE ≤ a.toNat) : pmemOffset cfg a = a.toNat - FLASH_BASE := by
    rw [pmemOffset_of_le (by omega), hb]
  unfold inPmem
  split_ifs with hf hs
  · rw [Except.ok.injEq, decide_eq_true_eq, hsub hf.1]
    simp only [FLASH_BASE, FLASH_SIZE, SRAM_BASE, SRAM_SIZE] at *
    omega
  · rw [Except.ok.injEq, decide_eq_true_eq]
    simp only [FLASH_BASE, FLASH_SIZE, SRAM_BASE, SRAM_SIZE] at *
    omega
  · rw [iff_false_left (by simp)]
    simp only [FLASH_BASE, FLASH_SIZE, SRAM_BASE, SRAM_SIZE] at *
    omega

theorem guestToHost_flash (h : FLASH_BASE ≤ a.toNat ∧ a.toNat < FLASH_BASE + FLASH_SIZE) :
    guestToHost a = .ok ⟨.flash, a.toNat - FLASH_BASE⟩ := by
  rw [guestToHost_iff]
  simp only [HostArray.base, HostArray.window]
  omega

theorem guestToHost_sram (h : SRAM_BASE ≤ a.toNat ∧ a.toNat < SRAM_BASE + SRAM_SIZE) :
    guestToHost a = .ok ⟨.sram, a.toNat - SRAM_BASE⟩ := by
  rw [guestToHost_iff]
  simp only [HostArray.base, HostArray.window]
  omega

theorem accessInside_iff (hbase : cfg.MBASE = 0x30000000) (hsize : cfg.MSIZE ≤ FLASH_SIZE)
    (hlen : 0 < len) :
    AccessInside cfg a len ↔
      ¬ Straddles FLASH_BASE cfg.MSIZE a len ∧ ¬ Straddles SRAM_BASE SRAM_SIZE a len := by
  unfold AccessInside Straddles
  rw [inPmem_iff hbase hsize]
  constructor
  · intro h
    refine ⟨fun ⟨hlo, hhi, hend⟩ => ?_, fun ⟨hlo, hhi, hend⟩ => ?_⟩
    · obtain ⟨p, hp, hin⟩ := h (.inl ⟨hlo, hhi⟩)
      cases hp.symm.trans (guestToHost_flash (a := a) ⟨hlo, by omega⟩)
      have := hin (len - 1) (by omega)
      simp only [Config.arrayLen] at this
      omega
    · obtain ⟨p, hp, hin⟩ := h (.inr ⟨hlo, hhi⟩)
      cases hp.symm.trans (guestToHost_sram (a := a) ⟨hlo, by omega⟩)
      have := hin (len - 1) (by omega)
      simp only [Config.arrayLen, SRAM_BASE, SRAM_SIZE] at this hlo hhi hend
      omega
  · rintro ⟨hflash, hsram⟩ (hf | hs)
    · refine ⟨_, guestToHost_flash ⟨hf.1, by omega⟩, fun k hk => ?_⟩
      simp only [Config.arrayLen]
      omega
    · refine ⟨_, guestToHost_sram ⟨hs.1, by omega⟩, fun k hk => ?_⟩
      simp only [Config.arrayLen, SRAM_BASE, SRAM_SIZE] at hs hsram ⊢
      omega

end Access

section Memcpy

variable {a : Word} {n i : ℕ} {m m' : Mem} {buf buf' : ℕ → Byte} {toDut : Bool} {l : List HostPtr}

theorem memcpyLoop_ok (h : memcpyLoop toDut a n i m buf = .ok (m', buf', l)) :
    (∀ k < n, ∃ p ∈ l, guestToHost (a + BitVec.ofNat 32 (i + k)) = .ok p) ∧
      ∀ p ∈ l, ∃ k < n, guestToHost (a + BitVec.ofNat 32 (i + k)) = .ok p := by
  induction n generalizing i m buf l with
  | zero =>
    cases h
    exact ⟨fun k hk => absurd hk (Nat.not_lt_zero k), fun p hp => (List.not_mem_nil hp).elim⟩
  | succ n ih =>
    obtain ⟨p, hp, h⟩ := bind_eq_ok.mp h
    obtain ⟨⟨m₁, buf₁, l₁⟩, hrest, h⟩ := bind_eq_ok.mp h
    cases h
    obtain ⟨hall, honly⟩ := ih hrest
    refine ⟨fun k hk => ?_, fun q hq => ?_⟩
    · cases k with
      | zero => exact ⟨p, List.mem_cons_self, hp⟩
      | succ k =>
        obtain ⟨q, hq, hgh⟩ := hall k (by omega)
        refine ⟨q, List.mem_cons_of_mem p hq, ?_⟩
        rwa [show i + (k + 1) = i + 1 + k by omega]
    · rcases List.mem_cons.mp hq with rfl | hq
      · exact ⟨0, by omega, hp⟩
      · obtain ⟨k, hk, hgh⟩ := honly q hq
        refine ⟨k + 1, by omega, ?_⟩
        rwa [show i + (k + 1) = i + 1 + k by omega]

theorem memcpyLoop_total (toDut : Bool) (m : Mem) (buf : ℕ → Byte)
    (h : ∀ k < n, ∃ p, guestToHost (a + BitVec.ofNat 32 (i + k)) = .ok p) :
    ∃ r, memcpyLoop toDut a n i m buf = .ok r := by
  induction n generalizing i m buf with
  | zero => exact ⟨_, rfl⟩
  | succ n ih =>
    obtain ⟨p, hp⟩ := h 0 (by omega)
    have hrest : ∀ k < n, ∃ p, guestToHost (a + BitVec.ofNat 32 (i + 1 + k)) = .ok p := by
      intro k hk
      have := h (k + 1) (by omega)
      rwa [show i + (k + 1) = i + 1 + k by omega] at this
    obtain ⟨⟨m₁, buf₁, l₁⟩, hr⟩ := ih
      (if toDut then m else Function.update m p.arr (Function.update (m p.arr) p.off (buf i)))
      (if toDut then Function.update buf i (m p.arr p.off) else buf) hrest
    rw [Nat.add_zero] at hp
    refine ⟨(m₁, buf₁, p :: l₁), ?_⟩
    simp only [memcpyLoop, hp, bind, Except.bind, hr, pure, Except.pure]

theorem memcpyLoop_window (arr : HostArray) (h : memcpyLoop toDut a n 0 m buf = .ok (m', buf', l))
    (hlo : arr.base ≤ a.toNat) (hhi : a.toNat < arr.base + arr.window) :
    a.toNat + n ≤ arr.base + arr.window ∧
      ∀ p ∈ l, ∃ k < n, p = ⟨arr, a.toNat - arr.base + k⟩ := by
  have hstart : guestToHost a = .ok ⟨arr, a.toNat - arr.base⟩ := by
    rw [guestToHost_iff]
    dsimp only
    omega
  obtain ⟨hall, honly⟩ := memcpyLoop_ok h
  have hend : a.toNat + n ≤ arr.base + arr.window := by
    by_contra hlt
    -- the address just past the window is not mapped
    obtain ⟨p, -, hp⟩ := hall (arr.base + arr.window - a.toNat) (by omega)
    rw [Nat.zero_add, guestToHost_iff, toNat_add_ofNat (by
      cases arr <;> simp only [HostArray.base, HostArray.window, SRAM_BASE, SRAM_SIZE, FLASH_BASE,
        FLASH_SIZE] at hlo hhi ⊢ <;> omega)] at hp
    obtain ⟨parr, off⟩ := p
    cases arr <;> cases parr <;>
      simp only [HostArray.base, HostArray.window, SRAM_BASE, SRAM_SIZE, FLASH_BASE,
        FLASH_SIZE] at hlo hhi hp <;> omega
  refine ⟨hend, fun p hp => ?_⟩
  obtain ⟨k, hk, hgh⟩ := honly p hp
  rw [Nat.zero_add, guestToHost_add hstart (by dsimp only; omega)] at hgh
  exact ⟨k, hk, (Except.ok.inj hgh).symm⟩

variable {cfg : Config}

theorem memcpyInside_iff :
    MemcpyInside cfg a n ↔
      ¬ (FLASH_BASE ≤ a.toNat ∧ a.toNat < FLASH_BASE + FLASH_SIZE ∧ 0 < n ∧
        FLASH_BASE + cfg.MSIZE < a.toNat + n ∧ a.toNat + n ≤ FLASH_BASE + FLASH_SIZE) := by
  constructor
  · rintro h ⟨hlo, hhi, hn, hpast, hend⟩
    have hstart : guestToHost a = .ok ⟨.flash, a.toNat - FLASH_BASE⟩ :=
      guestToHost_flash ⟨hlo, hhi⟩
    have hall : ∀ k < n, guestToHost (a + BitVec.ofNat 32 (0 + k)) =
        .ok ⟨.flash, a.toNat - FLASH_BASE + k⟩ := by
      intro k hk
      rw [Nat.zero_add]
      exact guestToHost_add hstart (by simp only [HostArray.window]; omega)
    obtain ⟨⟨m', buf', l⟩, hr⟩ := memcpyLoop_total true (fun _ _ => 0) (fun _ => 0)
      fun k hk => ⟨_, hall k hk⟩
    have hcopy : difftestMemcpy (fun _ _ => 0) a (fun _ => 0) n true = .ok (m', buf', l) := by
      rw [difftestMemcpy, if_pos ⟨hlo, hhi⟩]
      exact hr
    obtain ⟨p, hp, hgh⟩ := (memcpyLoop_ok hr).1 (n - 1) (by omega)
    cases hgh.symm.trans (hall (n - 1) (by omega))
    have := h _ _ _ _ _ _ hcopy _ hp
    simp only [Config.arrayLen] at this
    omega
  · intro hcond m buf toDut m' buf' l hcopy p hp
    unfold difftestMemcpy at hcopy
    split_ifs at hcopy with hf hs
    · obtain ⟨hend, honly⟩ := memcpyLoop_window .flash hcopy hf.1 hf.2
      obtain ⟨k, hk, rfl⟩ := honly p hp
      simp only [Config.arrayLen, HostArray.base, HostArray.window] at hend ⊢
      omega
    · obtain ⟨hend, honly⟩ := memcpyLoop_window .sram hcopy hs.1 hs.2
      obtain ⟨k, hk, rfl⟩ := honly p hp
      simp only [Config.arrayLen, HostArray.base, HostArray.window, SRAM_SIZE] at hend ⊢
      omega

/-- Kconfig's default size at the base of the flash window. -/
def defaultMem : Config := ⟨0x30000000, 0x8000000, false, false, false, by decide⟩

/-- The bounds hold exactly when the access does not run over the end of flash or SRAM, and
the copy does not run over the end of the flash array inside the flash window. -/
theorem bounds_iff (cfg : Config) (hbase : cfg.MBASE = 0x30000000)
    (hsize : cfg.MSIZE ≤ 0x10000000) (a : Word) (len n : ℕ)
    (hlen : len = 1 ∨ len = 2 ∨ len = 4) :
    (AccessInside cfg a len ↔
      ¬ Straddles FLASH_BASE cfg.MSIZE a len ∧ ¬ Straddles SRAM_BASE SRAM_SIZE a len) ∧
    (MemcpyInside cfg a n ↔
      ¬ (FLASH_BASE ≤ a.toNat ∧ a.toNat < FLASH_BASE + FLASH_SIZE ∧ 0 < n ∧
        FLASH_BASE + cfg.MSIZE < a.toNat + n ∧ a.toNat + n ≤ FLASH_BASE + FLASH_SIZE)) := by
  exact ⟨accessInside_iff hbase hsize (by omega), memcpyInside_iff⟩

/-- A word and a copy of four bytes at the reset vector. -/
theorem bounds_iff_reset :
    (AccessInside defaultMem 0x30000000 4 ↔ ¬ Straddles FLASH_BASE 0x8000000 0x30000000 4 ∧
      ¬ Straddles SRAM_BASE SRAM_SIZE 0x30000000 4) ∧
    (MemcpyInside defaultMem 0x30000000 4 ↔
      ¬ (FLASH_BASE ≤ 0x30000000 ∧ 0x30000000 < FLASH_BASE + FLASH_SIZE ∧ 0 < 4 ∧
        FLASH_BASE + 0x8000000 < 0x30000000 + 4 ∧
          0x30000000 + 4 ≤ FLASH_BASE + FLASH_SIZE)) :=
  bounds_iff defaultMem rfl (by decide) 0x30000000 4 4 (by decide)

/-- A word read two bytes before the end of flash. -/
theorem word_over_flash_end_fails :
    ¬ ∀ (cfg : Config) (a : Word) (len n : ℕ), cfg.MBASE = 0x30000000 → 0 < cfg.MSIZE →
      cfg.MSIZE ≤ 0x10000000 → (len = 1 ∨ len = 2 ∨ len = 4) →
      AccessInside cfg a len ∧ MemcpyInside cfg a n := by
  intro h
  have hin := (h defaultMem 0x37fffffe 4 0 rfl (by decide) (by decide) (by decide)).1
  exact ((accessInside_iff rfl (by decide) (by decide)).mp hin).1 ⟨by decide, by decide, by decide⟩

end Memcpy

end Ysyx.Nemu
