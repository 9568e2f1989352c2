import Ysyx.Lib.Chain
import Ysyx.Lib.Outcome
import Mathlib.Data.Nat.Digits.Defs

/-! The address spaces of the native platform (`native/vme.c`) after `vme_init`:
`map` and `__am_switch` on the lists of page maps, their hash tables, and the
pages that the host is told to map and unmap. -/

namespace Ysyx.Am.Native

open Chain

abbrev Addr := BitVec 64

/-- The number of a page that `pgalloc` has returned. -/
abbrev Ptr := ℕ

/-- The number of an address space, which stands for its `as->ptr`. -/
abbrev Space := ℕ

structure PageMap where
  va : Addr
  pa : Addr
  next : Option Ptr
  prot : BitVec 32
  isMapped : Bool
  key : String
  deriving DecidableEq, Repr

/-- `hash` is the dictionary that `hsearch_r` searches. -/
structure VMHead where
  head : Option Ptr
  hash : String → Option Ptr
  nrPage : ℕ

/-- The calls of `__am_pmem_map` and `__am_pmem_unmap`. -/
inductive PmemCall where
  | map (va pa : Addr) (prot : BitVec 32)
  | unmap (va : Addr)
  deriving DecidableEq, Repr

structure State where
  node : Ptr → PageMap
  nrAlloc : ℕ
  vmHead : Space → VMHead
  /-- `thiscpu->vm_head` -/
  current : Option Space
  pmem : List PmemCall

/-- A failed assertion, or a loop that has used up its fuel. -/
inductive Stop where
  | assertion | fuel
  deriving DecidableEq, Repr

def PMEM_START : Addr := 0x1000000

/-- The protection for `mmap`: what is readable is executable as well. -/
def mmapProt (prot : BitVec 32) : BitVec 32 :=
  (if prot &&& 1 ≠ 0 then 1 ||| 4 else 0) ||| (if prot &&& 2 ≠ 0 then 2 else 0)

def USER_START : ℕ := 0x40000000
def USER_END : ℕ := 0xc0000000

/-- `IN_RANGE(va, USER_SPACE)` -/
def inUserSpace (va : Addr) : Bool := USER_START ≤ va.toNat && va.toNat < USER_END

/-- What the host answers for one page of `pmem_fd`: whether `mmap` takes an address, a protection
and an offset, and whether `munmap` takes an address, as it does for a page of the user area. -/
structure Host (pgsize : ℕ) where
  mmap : Addr → BitVec 32 → Addr → Bool
  munmap : Addr → Bool
  munmap_page : ∀ va, inUserSpace va = true → va.toNat % pgsize = 0 → munmap va = true

/-- `"%x"`, which reads the low 32 bits of its argument. -/
def hexKey (va : Addr) : String :=
  let ds := Nat.digits 16 (va.setWidth 32).toNat
  String.ofList (if ds.isEmpty then ['0'] else (ds.map Nat.digitChar).reverse)

/-- `hsearch_r` with `ENTER`: an entry that exists is kept. -/
def enter (hash : String → Option Ptr) (key : String) (p : Ptr) : String → Option Ptr :=
  match hash key with
  | some _ => hash
  | none => Function.update hash key (some p)

def VMHead.empty : VMHead := ⟨none, fun _ => none, 0⟩

def State.setNode (s : State) (p : Ptr) (n : PageMap) : State :=
  { s with node := Function.update s.node p n }

def State.setHead (s : State) (a : Space) (h : VMHead) : State :=
  { s with vmHead := Function.update s.vmHead a h }

def State.setMapped (s : State) (p : Ptr) (isMapped : Bool) : State :=
  s.setNode p { s.node p with isMapped }

section Operations

variable {pgsize : ℕ} (host : Host pgsize)

/-- `__am_pmem_map`, which asserts that `mmap` has succeeded. -/
def amPmemMap (va pa : Addr) (prot : BitVec 32) (s : State) : Except Stop State :=
  if host.mmap va (mmapProt prot) (pa - PMEM_START) then
    .ok { s with pmem := s.pmem ++ [.map va pa prot] }
  else .error .assertion

/-- `__am_pmem_unmap`, which asserts that `munmap` has succeeded. -/
def amPmemUnmap (va : Addr) (s : State) : Except Stop State :=
  if host.munmap va then .ok { s with pmem := s.pmem ++ [.unmap va] } else .error .assertion

/-- `__am_pmem_map(pp->va, pp->pa, pp->prot); pp->is_mapped = true;` -/
def State.mapPage (s : State) (p : Ptr) : Except Stop State := do
  let s ← amPmemMap host (s.node p).va (s.node p).pa (s.node p).prot s
  return s.setMapped p true

/-- `__am_pmem_unmap(pp->va); pp->is_mapped = false;` -/
def State.unmapPage (s : State) (p : Ptr) : Except Stop State := do
  let s ← amPmemUnmap host (s.node p).va s
  return s.setMapped p false

/-- `if (pp->is_mapped) { … }` -/
def State.unmapIfMapped (s : State) (p : Ptr) : Except Stop State :=
  if (s.node p).isMapped then s.unmapPage host p else .ok s

/-- The page map that `map` uses for `va`, with the tables it leaves. -/
def findOrEnter (a : Space) (va : Addr) (s : State) : Ptr × State :=
  let h := s.vmHead a
  match h.hash (hexKey va) with
  | some p => (p, s)
  | none =>
    let p := s.nrAlloc
    let s := { s with nrAlloc := s.nrAlloc + 1 }
    let s := s.setNode p { s.node p with key := hexKey va }
    (p, s.setHead a { h with hash := enter h.hash (hexKey va) p, nrPage := h.nrPage + 1 })

/-- Fills the node and pushes it; in the current space the map is enforced at once. -/
def pushNode (a : Space) (p : Ptr) (va pa : Addr) (prot : BitVec 32) (s : State) :
    Except Stop State :=
  let h := s.vmHead a
  let s := s.setNode p
    { s.node p with va := va, pa := pa, prot := prot, isMapped := false, next := h.head }
  let s := s.setHead a { h with head := some p }
  if s.current = some a then s.mapPage host p else .ok s

def map (a : Space) (va pa : Addr) (prot : BitVec 32) (s : State) : Except Stop State :=
  if inUserSpace va && va.toNat % pgsize == 0 && pa.toNat % pgsize == 0 then
    let (p, s) := findOrEnter a va s
    pushNode host a p va pa prot s
  else .error .assertion

/-- `list_foreach(pp, head) { if (pp->is_mapped) … }` -/
def unmapAll : ℕ → Option Ptr → State → Except Stop State
  | _, none, s => .ok s
  | 0, some _, _ => .error .fuel
  | n + 1, some p, s => do
    let s ← s.unmapIfMapped host p
    unmapAll n (s.node p).next s

/-- `list_foreach(pp, head) { assert(IN_RANGE(…)); … }` -/
def mapAll : ℕ → Option Ptr → State → Except Stop State
  | _, none, s => .ok s
  | 0, some _, _ => .error .fuel
  | n + 1, some p, s =>
    if inUserSpace (s.node p).va then do
      let s ← s.mapPage host p
      mapAll n (s.node p).next s
    else .error .assertion

/-- `__am_switch` to a context whose `vm_head` is `target`. -/
def amSwitch (fuel : ℕ) (target : Option Space) (s : State) : Except Stop State :=
  if target = s.current then .ok s
  else do
    let s ← match s.current with
      | some a => unmapAll host fuel (s.vmHead a).head s
      | none => .ok s
    let s ← match target with
      | some b => mapAll host fuel (s.vmHead b).head s
      | none => .ok s
    return { s with current := target }

end Operations

end Ysyx.Am.Native
