import Mathlib.Logic.Function.Basic
import Mathlib.Data.List.Nodup
import Mathlib.Tactic
import Ysyx.Lib.Align

/-! The address spaces of the x86-64 platform (`x86/qemu/vme.c`): `protect`, `map`
and `unprotect` on page tables in memory, and the walk of the processor. The
kernel's tables are those of `start64.S`. -/

namespace Ysyx.Am.X86

abbrev Addr := BitVec 64

abbrev Space := ℕ

def PTE_P : Addr := 0x001
def PTE_W : Addr := 0x002
def PTE_U : Addr := 0x004
def PTE_PS : Addr := 0x080

def PML4_ADDR : Addr := 0x1000
def PDPT_ADDR : Addr := 0x2000

def MMAP_NONE : BitVec 32 := 0
def MMAP_WRITE : BitVec 32 := 2

/-- `struct ptinfo` -/
structure PtInfo where
  mask : Addr
  shift : ℕ
  bits : ℕ
  deriving DecidableEq, Repr

def CR3 : PtInfo := ⟨0x000000000000, 0, 0⟩
def PML4 : PtInfo := ⟨0xff8000000000, 39, 9⟩
def PDPT : PtInfo := ⟨0x007fc0000000, 30, 9⟩
def PD : PtInfo := ⟨0x00003fe00000, 21, 9⟩
def PT : PtInfo := ⟨0x0000001ff000, 12, 9⟩

/-- `mmu.pgtables` -/
def pgtables : List PtInfo := [CR3, PML4, PDPT, PD, PT]

/-- `struct vm_area` -/
structure VmArea where
  start : Addr
  stop : Addr
  kernel : Bool
  deriving DecidableEq, Repr

def uvmArea : VmArea := ⟨0x100000000000, 0x108000000000, false⟩
def kernelArea : VmArea := ⟨0x000000000000, 0x008000000000, true⟩

def vmAreas : List VmArea := [uvmArea, kernelArea]

/-- `IN_RANGE` -/
def VmArea.has (area : VmArea) (va : Addr) : Bool :=
  area.start.toNat ≤ va.toNat && va.toNat < area.stop.toNat

def indexof (addr : Addr) (info : PtInfo) : ℕ := ((addr &&& info.mask) >>> info.shift).toNat

/-- `addr & ~(mmu.pgsize - 1)`, also `ROUNDDOWN(addr, mmu.pgsize)` -/
def baseof (addr : Addr) : Addr := addr &&& ~~~ 0xfff#64

def slot (pt : Addr) (index : ℕ) : Addr := pt + BitVec.ofNat 64 (8 * index)

/-- `alloc` is what `pgalloc` has returned, oldest first. -/
structure State where
  mem : Addr → Addr
  ptr : Space → Addr
  alloc : List Addr

/-- Where a walk stands: at `&as->ptr`, or at a table in memory. -/
inductive Table where
  | root (a : Space)
  | page (base : Addr)
  deriving DecidableEq, Repr

def State.read (s : State) : Table → ℕ → Addr
  | .root a, _ => s.ptr a
  | .page b, index => s.mem (slot b index)

def State.write (s : State) (pt : Table) (index : ℕ) (e : Addr) : State :=
  match pt with
  | .root a => { s with ptr := Function.update s.ptr a e }
  | .page b => { s with mem := Function.update s.mem (slot b index) e }

/-- The tables that `start64.S` makes. -/
def kernelTables : List Addr := [PML4_ADDR, PDPT_ADDR]

/-- Memory as `start64.S` leaves it: one 512 GiB region of 1 GiB pages. -/
structure Booted (mem : Addr → Addr) : Prop where
  pml4 : mem (slot PML4_ADDR 0) = PDPT_ADDR ||| PTE_P ||| PTE_W
  pdpt : ∀ i < 512, mem (slot PDPT_ADDR i) =
    (BitVec.ofNat 64 i <<< 30) ||| (PTE_P ||| PTE_W ||| PTE_PS)

/-- `pgalloc`, of what it has returned so far; it fails with a null pointer. -/
structure PageAlloc where
  fn : List Addr → Addr
  aligned : ∀ log, baseof (fn log) = fn log
  fresh : ∀ log, fn log ≠ 0 → fn log ∉ log ∧ fn log ∉ kernelTables

/-- What `map` writes over the entry that the walk has found. -/
def mapEntry (pa : Addr) (prot : BitVec 32) (e : Addr) : Option Addr :=
  if prot = MMAP_NONE then
    if e &&& PTE_P = 0 then none else some 0
  else
    if e &&& PTE_P ≠ 0 then none
    else some (pa ||| PTE_P ||| PTE_U ||| (if prot &&& MMAP_WRITE ≠ 0 then PTE_W else 0))

section Operations

variable (pg : PageAlloc)

/-- The loop of `pgallocz` over the entries of the page. -/
def clear (base : Addr) (mem : Addr → Addr) : Addr → Addr :=
  (List.range 512).foldl (fun mem i => Function.update mem (slot base i) 0) mem

/-- A panic is `none`. -/
def pgallocz (s : State) : Option (Addr × State) :=
  let base := pg.fn s.alloc
  if base = 0 then none
  else
    some (base, { s with mem := clear base s.mem, alloc := s.alloc ++ [base] })

/-- One round is one level; the last level returns `&pt[index]`. -/
def ptwalk (addr flags : Addr) : List PtInfo → Table → State → Option ((Table × ℕ) × State)
  | [], _, _ => none
  | [info], pt, s => some ((pt, indexof addr info), s)
  | info :: info' :: rest, pt, s =>
    let index := indexof addr info
    if s.read pt index &&& PTE_P = 0 then do
      let (nextPage, s) ← pgallocz pg s
      ptwalk addr flags (info' :: rest) (.page nextPage)
        (s.write pt index (nextPage ||| PTE_P ||| flags))
    else
      ptwalk addr flags (info' :: rest) (.page (baseof (s.read pt index))) s

/-- The two loops of `protect`, over the kernel areas and over their level-1 entries. -/
def copyKernel (upt : Addr) (s : State) : State :=
  (vmAreas.filter VmArea.kernel).foldl
    (fun s vma =>
      (List.range ((vma.stop - vma.start).toNat >>> PML4.shift)).foldl
        (fun s n =>
          let index := indexof (vma.start + (BitVec.ofNat 64 n <<< PML4.shift)) PML4
          s.write (.page upt) index (s.mem (slot PML4_ADDR index))) s) s

def protect (a : Space) (s : State) : Option State := do
  let (upt, s) ← pgallocz pg s
  return (copyKernel upt s).write (.root a) 0 (upt ||| PTE_P ||| PTE_U)

def map (a : Space) (va pa : Addr) (prot : BitVec 32) (s : State) : Option State :=
  if !uvmArea.has va then none
  else if va ≠ baseof va ∨ pa ≠ baseof pa then none
  else do
    let ((pt, index), s) ← ptwalk pg va (PTE_W ||| PTE_U) pgtables (.root a) s
    let e ← mapEntry pa prot (s.read pt index)
    let (_, s) ← ptwalk pg va (PTE_W ||| PTE_U) pgtables (.root a) (s.write pt index e)
    return s

end Operations

/-- The calls of `pgfree`, in order; beyond the last level there is nothing to free. -/
def teardown (s : State) : List PtInfo → Table → List Addr
  | [], _ => []
  | info :: rest, pt =>
    ((List.range (1 <<< info.bits)).flatMap fun index =>
      if s.read pt index &&& PTE_P ≠ 0 ∧ s.read pt index &&& PTE_U ≠ 0 then
        teardown s rest (.page (baseof (s.read pt index)))
      else []) ++
    match pt with
    | .root _ => []
    | .page b => [b]

def unprotect (a : Space) (s : State) : List Addr := teardown s pgtables (.root a)

/-- The frame of an address, and the rights that every level on the way grants. -/
structure Translation where
  frame : Addr
  user : Bool
  write : Bool
  deriving DecidableEq, Repr

/-- Entries of the levels that map 1 GiB and 2 MiB may be large pages. -/
def pageWalk (mem : Addr → Addr) (va : Addr) :
    List PtInfo → Addr → Bool → Bool → Option Translation
  | [], _, _, _ => none
  | info :: rest, pt, user, write =>
    let e := mem (slot (baseof pt) (indexof va info))
    let user := user && e &&& PTE_U ≠ 0
    let write := write && e &&& PTE_W ≠ 0
    if e &&& PTE_P = 0 then none
    else if rest = [] then some ⟨baseof e, user, write⟩
    else if e &&& PTE_PS ≠ 0 ∧ info.shift ≤ 30 then
      some ⟨(e >>> info.shift) <<< info.shift ||| (baseof va &&& ((1#64 <<< info.shift) - 1)), user,
        write⟩
    else pageWalk mem va rest e user write

def translate (mem : Addr → Addr) (cr3 va : Addr) : Option Translation :=
  pageWalk mem va pgtables.tail cr3 true true

theorem baseof_toNat (b : Addr) : (baseof b).toNat = b.toNat / 4096 * 4096 :=
  toNat_and_not_mask (k := 12) b

theorem baseof_idem (b : Addr) : baseof (baseof b) = baseof b := by
  rw [baseof, baseof, BitVec.and_assoc, BitVec.and_self]

theorem slot_toNat {b : Addr} (hb : baseof b = b) {i : ℕ} (hi : i < 512) :
    (slot b i).toNat = b.toNat + 8 * i := by
  have hb' := baseof_toNat b
  rw [hb] at hb'
  have hlt := b.isLt
  exact toNat_add_ofNat (by omega)

theorem slot_inj {b c : Addr} (hb : baseof b = b) (hc : baseof c = c) {i j : ℕ} (hi : i < 512)
    (hj : j < 512) (h : slot b i = slot c j) : b = c ∧ i = j := by
  have hb' := baseof_toNat b
  have hc' := baseof_toNat c
  rw [hb] at hb'
  rw [hc] at hc'
  have hn := congrArg BitVec.toNat h
  rw [slot_toNat hb hi, slot_toNat hc hj] at hn
  have hbc : b.toNat = c.toNat := by omega
  exact ⟨BitVec.eq_of_toNat_eq hbc, by omega⟩

theorem indexof_eq (va : Addr) {info : PtInfo} (hmask : info.mask = 511#64 <<< info.shift)
    (hshift : info.shift ≤ 55) : indexof va info = va.toNat / 2 ^ info.shift % 512 := by
  have hmask' : info.mask >>> info.shift = 511#64 := by
    rw [hmask]
    apply BitVec.eq_of_toNat_eq
    rw [BitVec.toNat_ushiftRight, BitVec.toNat_shiftLeft, Nat.shiftLeft_eq, Nat.shiftRight_eq_div_pow]
    have hlt : 511 * 2 ^ info.shift < 2 ^ 64 :=
      calc 511 * 2 ^ info.shift < 2 ^ 9 * 2 ^ info.shift := by
            exact Nat.mul_lt_mul_of_pos_right (by norm_num) (by positivity)
        _ = 2 ^ (9 + info.shift) := (pow_add 2 9 info.shift).symm
        _ ≤ 2 ^ 64 := Nat.pow_le_pow_right (by norm_num) (by omega)
    rw [show (511#64).toNat = 511 from rfl, Nat.mod_eq_of_lt hlt]
    exact Nat.mul_div_cancel _ (by positivity)
  rw [indexof, BitVec.ushiftRight_and_distrib, hmask', BitVec.toNat_and,
    BitVec.toNat_ushiftRight, Nat.shiftRight_eq_div_pow]
  exact Nat.and_two_pow_sub_one_eq_mod _ 9

end Ysyx.Am.X86
